import MinerInfo.Hex

/-! Hashes of 256 bits: transaction identifiers, merkle roots, block hashes. The bytes are kept in the
order in which they travel in a script; to a person they are shown last byte first. Hashes are ordered
byte by byte from the first, a smaller byte first. -/

namespace MinerInfo

/-- A hash, as its 32 bytes in the order of a script. -/
structure Hash where
  bytes : Bytes
  length_bytes : bytes.length = 32
  deriving DecidableEq

namespace Hash

def size : Nat := 32

@[ext] theorem ext {a b : Hash} (h : a.bytes = b.bytes) : a = b := by
  cases a
  cases b
  cases h
  rfl

/-- The hash with the given bytes, if there are 32 of them. -/
def ofBytes? (bytes : Bytes) : Option Hash :=
  if h : bytes.length = 32 then some ⟨bytes, h⟩ else none

def zero : Hash := ⟨List.replicate 32 0, by simp⟩

@[simp] theorem ofBytes?_bytes (h : Hash) : ofBytes? h.bytes = some h := by
  simp [ofBytes?, h.length_bytes]

theorem bytes_of_ofBytes? {bytes : Bytes} {h : Hash} (e : ofBytes? bytes = some h) : h.bytes = bytes := by
  unfold ofBytes? at e
  split at e
  · cases e; rfl
  · cases e

/-- The display form: the hexadecimal text of the reversed bytes. -/
def displayHex (h : Hash) : Text := Hex.encode h.bytes.reverse

/-- The text shown for a hash: from the last byte to the first, the digits of each byte are added to those
already there. -/
def shown (h : Hash) : Text := h.bytes.reverse.foldl (fun t byte => t ++ Hex.digits byte) []

def inspected (h : Hash) : Text := "Hash256(".toList ++ h.shown ++ [')']

def ofDisplayHex (t : Text) : Except Hex.Fault Hash :=
  match h : Hex.decodeExactly size t with
  | .error e => .error e
  | .ok bytes => .ok ⟨bytes.reverse, by simpa [size] using Hex.length_of_decodeExactly h⟩

@[simp] theorem length_displayHex (h : Hash) : h.displayHex.length = 64 := by
  simp [displayHex, h.length_bytes]

/-- Both ways of writing a hash give one text. -/
theorem shown_eq_displayHex (h : Hash) : h.shown = h.displayHex := by
  rw [shown, Hex.foldl_append_digits, List.nil_append, displayHex]

instance : Ord Hash where
  compare a b := compare a.bytes b.bytes

theorem compare_def (a b : Hash) : compare a b = compare a.bytes b.bytes := rfl

/-- How each hash of a list compares with the one after it. -/
def neighbours (hs : List Hash) : List Ordering := List.zipWith compare hs hs.tail

/-- The hashes of a list in ascending order, repetitions kept. -/
def sorted (hs : List Hash) : List Hash := hs.mergeSort fun a b => (compare a b).isLE

def distinct (hs : List Hash) : Nat := hs.eraseDups.length

end Hash

end MinerInfo
