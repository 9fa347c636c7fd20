import MinerInfo.Hash
import MinerInfo.Script.Format

/-! Reading a script from front to back. A read either takes bytes and moves on or is rejected; what a
rejected read has already taken stays taken. A run of single reads goes on after a rejected one. -/

namespace MinerInfo.Script

/-- A script and the place up to which it has been read. -/
structure Cursor where
  script : Bytes
  position : Nat
  deriving DecidableEq

namespace Cursor

def atStart (script : Bytes) : Cursor := ⟨script, 0⟩

def unread (c : Cursor) : Bytes := c.script.drop c.position

def remaining (c : Cursor) : Nat := c.script.length - c.position

def advance (c : Cursor) (n : Nat) : Cursor := ⟨c.script, c.position + n⟩

@[simp] theorem length_unread (c : Cursor) : c.unread.length = c.remaining := by
  simp [unread, remaining]

@[simp] theorem unread_advance (c : Cursor) (n : Nat) : (c.advance n).unread = c.unread.drop n := by
  simp [unread, advance]

@[simp] theorem unread_atStart (script : Bytes) : (atStart script).unread = script := rfl

end Cursor

/-- A computation that reads a script and may be rejected. -/
abbrev Read := EStateM Rejection Cursor

namespace Read

/-- Steps over `m` if the unread bytes begin with it, and tells whether they do. -/
def marker (m : Bytes) : Read Bool := fun c =>
  if m.isPrefixOf c.unread then .ok true (c.advance m.length) else .ok false c

def byte : Read UInt8 := fun c =>
  match c.script[c.position]? with
  | some b => .ok b (c.advance 1)
  | none => .error .tooShort c

/-- Takes `n` bytes, or none if fewer are left. -/
def bytes (n : Nat) : Read Bytes := fun c =>
  if c.position + n ≤ c.script.length then .ok (c.unread.take n) (c.advance n) else .error .tooShort c

/-- Takes a push: a length byte between `low` and `high`, then that many bytes by the read `take`. The range is
looked at before the data, so a wrong length is a matter of `otherwise` even where bytes are missing. -/
def pushBy (take : Nat → Read Bytes) (low high : UInt8) (otherwise : Rejection) : Read Bytes := do
  let length ← byte
  if low ≤ length ∧ length ≤ high then take length.toNat else throw otherwise

def hashBy (take : Nat → Read Bytes) (otherwise : Rejection) : Read Hash := do
  let data ← pushBy take hashLength hashLength otherwise
  match Hash.ofBytes? data with
  | some h => pure h
  | none => throw otherwise

def push : UInt8 → UInt8 → Rejection → Read Bytes := pushBy bytes

def hash : Rejection → Read Hash := hashBy bytes

/-- The number of bytes that are left. -/
def remaining : Read Nat := fun c => .ok c.remaining c

theorem marker_eq (m : Bytes) (c : Cursor) :
    marker m c = if m <+: c.unread then .ok true (c.advance m.length) else .ok false c := by
  simp [marker, List.isPrefixOf_iff_prefix]

theorem byte_eq (c : Cursor) :
    byte c = match c.unread with
      | [] => .error .tooShort c
      | b :: _ => .ok b (c.advance 1) := by
  unfold byte
  by_cases h : c.position < c.script.length
  · rw [Cursor.unread, List.drop_eq_getElem_cons h, List.getElem?_eq_getElem h]
  · rw [Cursor.unread, List.drop_eq_nil_of_le (by omega), List.getElem?_eq_none (by omega)]

theorem bytes_eq (n : Nat) (c : Cursor) (h : c.position ≤ c.script.length) :
    bytes n c = if n ≤ c.remaining then .ok (c.unread.take n) (c.advance n) else .error .tooShort c := by
  have : c.position + n ≤ c.script.length ↔ n ≤ c.remaining := by
    unfold Cursor.remaining
    omega
  simp [bytes, this]

end Read

/-- A single read. -/
inductive Step where
  | marker (m : Bytes)
  | byte
  | bytes (n : Nat)
  | push (low high : UInt8) (otherwise : Rejection)
  | hash (otherwise : Rejection)
  deriving DecidableEq

inductive Answer where
  | found (b : Bool)
  | byte (b : UInt8)
  | bytes (bs : Bytes)
  | hash (h : Hash)
  deriving DecidableEq

/-- Performs a step, with `take` for the bytes that it asks for. -/
def Step.readBy (take : Nat → Read Bytes) : Step → Read Answer
  | .marker m => .found <$> Read.marker m
  | .byte => .byte <$> Read.byte
  | .bytes n => .bytes <$> take n
  | .push low high otherwise => .bytes <$> Read.pushBy take low high otherwise
  | .hash otherwise => .hash <$> Read.hashBy take otherwise

def Step.read : Step → Read Answer := readBy Read.bytes

/-- What a read gives from a given cursor. -/
def Step.answer (s : Step) (c : Cursor) : Except Rejection Answer :=
  match s.read c with
  | .ok a _ => .ok a
  | .error e _ => .error e

/-- Where a read leaves the cursor, rejected or not. -/
def Step.move (s : Step) (c : Cursor) : Cursor :=
  match s.read c with
  | .ok _ d => d
  | .error _ d => d

/-- The answer of each step of a run, and the number of bytes then left. -/
def runBy (take : Nat → Read Bytes) (c : Cursor) : List Step → List (Except Rejection Answer × Nat)
  | [] => []
  | s :: rest =>
    match s.readBy take c with
    | .ok a d => (.ok a, d.remaining) :: runBy take d rest
    | .error e d => (.error e, d.remaining) :: runBy take d rest

def run : Cursor → List Step → List (Except Rejection Answer × Nat) := runBy Read.bytes

theorem runBy_cons {take : Nat → Read Bytes} {c : Cursor} {s : Step} (h : s.readBy take c = s.read c)
    (rest : List Step) :
    runBy take c (s :: rest) = (s.answer c, (s.move c).remaining) :: runBy take (s.move c) rest := by
  rw [runBy, Step.answer, Step.move, h]
  cases s.read c with
  | ok a d => rfl
  | error e d => rfl

theorem run_cons (c : Cursor) (s : Step) (rest : List Step) :
    run c (s :: rest) = (s.answer c, (s.move c).remaining) :: run (s.move c) rest :=
  runBy_cons rfl rest

end MinerInfo.Script
