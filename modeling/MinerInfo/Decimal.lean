import MinerInfo.Text

/-! Decimal numbers, the way they are written in messages, and the shortest one that a binary floating-point
number of 64 bits reads back from. A floating-point number is taken as `m * 2 ^ q`; the decimals that read
back as it are those between the midpoints to its neighbours. The coarsest decimal grid with a point there is
the one with the fewest digits. -/

namespace MinerInfo

/-- A number: the digits of `significand` with the point moved `exponent` places to the right. -/
structure Decimal where
  negative : Bool
  significand : Nat
  exponent : Int
  deriving DecidableEq, Repr

namespace Decimal

/-- The least exponent of the first digit at which a number is written without a power of ten. -/
def leastPlain : Int := -5

/-- The greatest exponent of the first digit at which a number is written without a power of ten. -/
def greatestPlain : Int := 15

/-- Digits with a point after the first `whole` of them; missing digits are zeros, and a digit stands on
either side of the point. -/
def pointed (whole : Int) (digits : Text) : Text :=
  if whole ≤ 0 then ['0', '.'] ++ List.replicate (-whole).toNat '0' ++ digits
  else
    let front := digits.take whole.toNat ++ List.replicate (whole.toNat - digits.length) '0'
    front ++ ['.'] ++ (if digits.length ≤ whole.toNat then ['0'] else digits.drop whole.toNat)

/-- Digits with a point after the first, if there are more, and a power of ten. -/
def scientific (exponent : Int) (digits : Text) : Text :=
  digits.take 1 ++ (if digits.length ≤ 1 then [] else '.' :: digits.drop 1)
    ++ ['e', if exponent < 0 then '-' else '+'] ++ Nat.toDigits 10 exponent.natAbs

/-- The written form of a number without its sign. -/
def magnitude (d : Decimal) : Text :=
  if d.significand = 0 then ['0', '.', '0']
  else
    let digits := Nat.toDigits 10 d.significand
    let first := d.exponent + digits.length - 1
    if leastPlain ≤ first ∧ first ≤ greatestPlain then pointed (first + 1) digits else scientific first digits

def text (d : Decimal) : Text := (if d.negative then ['-'] else []) ++ d.magnitude

/-- The point nearest to `m * 2 ^ q` on the grid of the multiples of `10 ^ g`, if it reads back as that
number. Of two points equally near, the even one is taken. -/
def nearestOnGrid (m : Nat) (q g : Int) : Option Nat :=
  let unit := Nat.pow 2 (q - 2).toNat * Nat.pow 10 (-g).toNat
  let cell := Nat.pow 2 (2 - q).toNat * Nat.pow 10 g.toNat
  let value := 4 * m * unit
  let low := (4 * m - if m = Nat.pow 2 52 ∧ -1074 < q then 1 else 2) * unit
  let high := (4 * m + 2) * unit
  let readsBack (n : Nat) : Bool :=
    if m % 2 = 0 then low ≤ n * cell && n * cell ≤ high else low < n * cell && n * cell < high
  let below := value / cell
  let rest := value % cell
  let nearer := if 2 * rest < cell ∨ 2 * rest = cell ∧ below % 2 = 0 then below else below + 1
  let farther := if nearer = below then below + 1 else below
  if 0 < nearer ∧ readsBack nearer then some nearer
  else if 0 < farther ∧ readsBack farther then some farther
  else none

/-- The grids that can be the coarsest one for some number, the coarsest first. -/
def grids : List Int := (List.range 650).map fun i => 308 - Int.ofNat i

/-- The shortest decimal that reads back as `m * 2 ^ q`. -/
def shortest (negative : Bool) (m : Nat) (q : Int) : Decimal :=
  if m = 0 then ⟨negative, 0, 0⟩
  else match grids.findSome? fun g => (nearestOnGrid m q g).map fun n => (n, g) with
  | some (n, g) => ⟨negative, n, g⟩
  | none => ⟨negative, 0, 0⟩

/-- The shortest decimal that reads back as a finite floating-point number. -/
def ofFloat (x : Float) : Decimal :=
  let bits := x.toBits.toNat
  let exponent := bits / Nat.pow 2 52 % Nat.pow 2 11
  let fraction := bits % Nat.pow 2 52
  if exponent = 0 then shortest (Nat.pow 2 63 ≤ bits) fraction (-1074)
  else shortest (Nat.pow 2 63 ≤ bits) (Nat.pow 2 52 + fraction) (Int.ofNat exponent - 1075)

end Decimal

end MinerInfo
