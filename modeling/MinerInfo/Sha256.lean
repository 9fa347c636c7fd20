import MinerInfo.Hash

/-! The hash function SHA-256 on byte strings: the message is padded to blocks of sixteen words, and each
block is mixed into a state of eight words. -/

namespace MinerInfo.Sha256

/-- The running state, eight words. -/
abbrev State := Vector UInt32 8

/-- A block of the padded message, sixteen words. -/
abbrev Block := Vector UInt32 16

/-- The state before the first block: the fractional parts of the square roots of the first eight primes. -/
def start : State := #v[
  0x6a09e667, 0xbb67ae85, 0x3c6ef372, 0xa54ff53a, 0x510e527f, 0x9b05688c, 0x1f83d9ab, 0x5be0cd19]

/-- The constants of the sixty-four rounds: the fractional parts of the cube roots of the first
sixty-four primes. -/
def constants : Vector UInt32 64 := #v[
  0x428a2f98, 0x71374491, 0xb5c0fbcf, 0xe9b5dba5, 0x3956c25b, 0x59f111f1, 0x923f82a4, 0xab1c5ed5,
  0xd807aa98, 0x12835b01, 0x243185be, 0x550c7dc3, 0x72be5d74, 0x80deb1fe, 0x9bdc06a7, 0xc19bf174,
  0xe49b69c1, 0xefbe4786, 0x0fc19dc6, 0x240ca1cc, 0x2de92c6f, 0x4a7484aa, 0x5cb0a9dc, 0x76f988da,
  0x983e5152, 0xa831c66d, 0xb00327c8, 0xbf597fc7, 0xc6e00bf3, 0xd5a79147, 0x06ca6351, 0x14292967,
  0x27b70a85, 0x2e1b2138, 0x4d2c6dfc, 0x53380d13, 0x650a7354, 0x766a0abb, 0x81c2c92e, 0x92722c85,
  0xa2bfe8a1, 0xa81a664b, 0xc24b8b70, 0xc76c51a3, 0xd192e819, 0xd6990624, 0xf40e3585, 0x106aa070,
  0x19a4c116, 0x1e376c08, 0x2748774c, 0x34b0bcb5, 0x391c0cb3, 0x4ed8aa4a, 0x5b9cca4f, 0x682e6ff3,
  0x748f82ee, 0x78a5636f, 0x84c87814, 0x8cc70208, 0x90befffa, 0xa4506ceb, 0xbef9a3f7, 0xc67178f2]

/-- Rotation to the right by `n` bits, for `n` between 1 and 31. -/
def rotate (x n : UInt32) : UInt32 := (x >>> n) ||| (x <<< (32 - n))

/-- Each bit of `y` or `z`, as the bit of `x` chooses. -/
def choice (x y z : UInt32) : UInt32 := (x &&& y) ^^^ ((~~~x) &&& z)

def majority (x y z : UInt32) : UInt32 := (x &&& y) ^^^ (x &&& z) ^^^ (y &&& z)

def bigSigma0 (x : UInt32) : UInt32 := rotate x 2 ^^^ rotate x 13 ^^^ rotate x 22

def bigSigma1 (x : UInt32) : UInt32 := rotate x 6 ^^^ rotate x 11 ^^^ rotate x 25

def smallSigma0 (x : UInt32) : UInt32 := rotate x 7 ^^^ rotate x 18 ^^^ (x >>> 3)

def smallSigma1 (x : UInt32) : UInt32 := rotate x 17 ^^^ rotate x 19 ^^^ (x >>> 10)

def word (a b c d : UInt8) : UInt32 :=
  (a.toUInt32 <<< 24) ||| (b.toUInt32 <<< 16) ||| (c.toUInt32 <<< 8) ||| d.toUInt32

def wordBytes (x : UInt32) : Bytes := [(x >>> 24).toUInt8, (x >>> 16).toUInt8, (x >>> 8).toUInt8, x.toUInt8]

/-- The eight big-endian bytes of the bit length of a message of `n` bytes. -/
def lengthBytes (n : Nat) : Bytes :=
  let bits := UInt64.ofNat (8 * n)
  [(bits >>> 56).toUInt8, (bits >>> 48).toUInt8, (bits >>> 40).toUInt8, (bits >>> 32).toUInt8,
    (bits >>> 24).toUInt8, (bits >>> 16).toUInt8, (bits >>> 8).toUInt8, bits.toUInt8]

/-- The message, a byte with its top bit alone set, zeros up to eight bytes short of a block, and the
bit length. -/
def padded (message : Bytes) : Bytes :=
  message ++ 0x80 :: List.replicate ((119 - message.length % 64) % 64) 0 ++ lengthBytes message.length

/-- The words that a byte string spells, four bytes each. -/
def words : Bytes → List UInt32
  | a :: b :: c :: d :: rest => word a b c d :: words rest
  | _ => []

def blocks (ws : List UInt32) : List Block :=
  if h : (ws.take 16).length = 16 then ⟨(ws.take 16).toArray, h⟩ :: blocks (ws.drop 16) else []
termination_by ws.length
decreasing_by
  rw [List.length_take] at h
  rw [List.length_drop]
  omega

/-- One round, with the round constant and schedule word already added up. -/
def round (s : State) (input : UInt32) : State :=
  let mixed := s[7] + bigSigma1 s[4] + choice s[4] s[5] s[6] + input
  let first := mixed + (bigSigma0 s[0] + majority s[0] s[1] s[2])
  Vector.mk #[first, s[0], s[1], s[2], s[3] + mixed, s[4], s[5], s[6]] rfl

/-- The schedule's window of sixteen words, moved on by one. -/
def advance (w : Block) : Block :=
  (w.eraseIdx 0).push (smallSigma1 w[14] + w[9] + smallSigma0 w[1] + w[0])

/-- The sixty-four rounds: each takes the first word of the schedule's window, which then moves on. -/
def rounds (s : State) (w : Block) : State :=
  (constants.foldl (fun (s, w) k => (round s (k + w[0]), advance w)) (s, w)).1

/-- Mixes a block into the state. -/
def compress (s : State) (block : Block) : State := Vector.zipWith (· + ·) s (rounds s block)

def State.hash (s : State) : Hash :=
  ⟨wordBytes s[0] ++ wordBytes s[1] ++ wordBytes s[2] ++ wordBytes s[3] ++ wordBytes s[4] ++ wordBytes s[5]
      ++ wordBytes s[6] ++ wordBytes s[7],
    by simp [wordBytes]⟩

def hash (message : Bytes) : Hash := ((blocks (words (padded message))).foldl compress start).hash

/-- The digest of "hello". -/
example : (hash [0x68, 0x65, 0x6c, 0x6c, 0x6f]).bytes =
    [0x2c, 0xf2, 0x4d, 0xba, 0x5f, 0xb0, 0xa3, 0x0e, 0x26, 0xe8, 0x3b, 0x2a, 0xc5, 0xb9, 0xe2, 0x9e,
      0x1b, 0x16, 0x1e, 0x5c, 0x1f, 0xa7, 0x42, 0x5e, 0x73, 0x04, 0x33, 0x62, 0x93, 0x8b, 0x98, 0x24] := by
  decide +kernel

end MinerInfo.Sha256
