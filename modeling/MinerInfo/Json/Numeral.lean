import MinerInfo.Decimal
import MinerInfo.Json.Fault

/-! Numbers in JSON: their written parts, and the values they stand for. A whole number that fits into
64 bits is exact. Every other one is a floating-point number, made from as many leading digits as fit
into 64 bits and one power of ten. -/

namespace MinerInfo.Json

/-- The parts of a written number, digit by digit. -/
structure Numeral where
  negative : Bool
  whole : List Nat
  /-- The digits after the point, if there is one. -/
  fraction : Option (List Nat)
  /-- The power of ten, if one is written, and whether its sign is a minus. -/
  exponent : Option (Bool × List Nat)
  deriving DecidableEq

def digitValue (c : Char) : Nat := c.toNat - '0'.toNat

/-- The digits in front of a text, of which there has to be one, and the text after them. -/
def digitsOf (s : Text) : Except Fault (List Nat × Text) :=
  match s with
  | [] => .error .truncated
  | c :: _ =>
    if c.isDigit then .ok ((s.takeWhile Char.isDigit).map digitValue, s.dropWhile Char.isDigit)
    else .error .malformed

/-- The whole part: a single zero, or digits of which the first is none. -/
def wholeOf (s : Text) : Except Fault (List Nat × Text) := do
  let (whole, rest) ← digitsOf s
  if whole.head? = some 0 ∧ 1 < whole.length then throw .malformed
  return (whole, rest)

/-- The digits after the point, if a point follows. -/
def fractionOf (s : Text) : Except Fault (Option (List Nat) × Text) :=
  match s with
  | '.' :: s => (digitsOf s).map fun (digits, rest) => (some digits, rest)
  | _ => .ok (none, s)

/-- Whether a minus stands in front, and the text after a sign of either kind. -/
def signOf (s : Text) : Bool × Text :=
  match s with
  | '-' :: s => (true, s)
  | '+' :: s => (false, s)
  | _ => (false, s)

/-- The power of ten, if one follows. -/
def exponentOf (s : Text) : Except Fault (Option (Bool × List Nat) × Text) :=
  match s with
  | [] => .ok (none, [])
  | c :: s =>
    if c = 'e' ∨ c = 'E' then
      (digitsOf (signOf s).2).map fun (digits, rest) => (some ((signOf s).1, digits), rest)
    else .ok (none, c :: s)

/-- The number that a text begins with, and the text after it. -/
def Numeral.scan (s : Text) : Except Fault (Numeral × Text) := do
  let negative := s.head? = some '-'
  let (whole, s) ← wholeOf (if negative then s.tail else s)
  let (fraction, s) ← fractionOf s
  let (exponent, s) ← exponentOf s
  return (⟨negative, whole, fraction, exponent⟩, s)

theorem digitsOf_length_lt {s : Text} {ds : List Nat} {t : Text} (h : digitsOf s = .ok (ds, t)) :
    t.length < s.length := by
  cases s with
  | nil => cases h
  | cons c s =>
    simp only [digitsOf] at h
    split at h
    · rename_i hc
      simp only [Except.ok.injEq, Prod.mk.injEq] at h
      rw [← h.2, List.dropWhile_cons_of_pos hc]
      exact Nat.lt_succ_of_le (List.dropWhile_suffix _).length_le
    · cases h

theorem wholeOf_length_lt {s : Text} {ds : List Nat} {t : Text} (h : wholeOf s = .ok (ds, t)) :
    t.length < s.length := by
  unfold wholeOf at h
  cases hd : digitsOf s with
  | error f => simp [hd, bind, Except.bind] at h
  | ok p =>
    obtain ⟨ds', t'⟩ := p
    simp only [hd, bind, Except.bind, pure, Except.pure] at h
    split at h
    · cases h
    · cases h
      exact digitsOf_length_lt hd

theorem fractionOf_length_le {s : Text} {ds : Option (List Nat)} {t : Text} (h : fractionOf s = .ok (ds, t)) :
    t.length ≤ s.length := by
  unfold fractionOf at h
  split at h
  · rename_i s'
    cases hd : digitsOf s' with
    | error f => simp [hd, Except.map] at h
    | ok p =>
      simp only [hd, Except.map, Except.ok.injEq, Prod.mk.injEq] at h
      rw [← h.2]
      exact Nat.le_succ_of_le (Nat.le_of_lt (digitsOf_length_lt hd))
  · cases h
    exact Nat.le_refl _

theorem signOf_length_le (s : Text) : (signOf s).2.length ≤ s.length := by
  unfold signOf
  split <;> simp

theorem exponentOf_length_le {s : Text} {e : Option (Bool × List Nat)} {t : Text}
    (h : exponentOf s = .ok (e, t)) : t.length ≤ s.length := by
  unfold exponentOf at h
  split at h
  · cases h
    exact Nat.le_refl _
  · rename_i c s'
    split at h
    · cases hd : digitsOf (signOf s').2 with
      | error f => simp [hd, Except.map] at h
      | ok p =>
        simp only [hd, Except.map, Except.ok.injEq, Prod.mk.injEq] at h
        rw [← h.2]
        have := digitsOf_length_lt hd
        have := signOf_length_le s'
        simp only [List.length_cons]
        omega
    · cases h
      exact Nat.le_refl _

theorem Numeral.scan_length_lt {s : Text} {n : Numeral} {t : Text} (h : Numeral.scan s = .ok (n, t)) :
    t.length < s.length := by
  unfold Numeral.scan at h
  simp only [bind, Except.bind, pure, Except.pure] at h
  split at h
  · cases h
  · rename_i p hw
    split at h
    · cases h
    · rename_i q hf
      split at h
      · cases h
      · rename_i r he
        cases h
        have h1 := wholeOf_length_lt hw
        have h2 := fractionOf_length_le hf
        have h3 := exponentOf_length_le he
        split at h1
        · have := List.length_tail (l := s)
          omega
        · omega

/-- The natural number that a list of digits spells. -/
def natOf (digits : List Nat) : Nat := digits.foldl (fun n d => 10 * n + d) 0

/-- Appends digits to a significand as long as it stays below `2 ^ 64`, and counts the digits left over. -/
def gather (m : Nat) : List Nat → Nat × Nat
  | [] => (m, 0)
  | d :: rest => if 10 * m + d < Nat.pow 2 64 then gather (10 * m + d) rest else (m, rest.length + 1)

/-- The floating-point number nearest to `10 ^ n`. -/
def powerOfTen (n : Nat) : Float := .ofScientific 1 false n

/-- The product `x * 10 ^ n`, if that is finite. -/
def scaleUp (x : Float) (n : Nat) : Option Float :=
  if n ≤ 308 then
    let y := x * powerOfTen n
    if y.isInf then none else some y
  else if x == 0 then some x else none

/-- The quotient `x / 10 ^ n`, divided by at most `10 ^ 308` at a time. -/
def scaleDown (x : Float) (n : Nat) : Float :=
  if n ≤ 308 then x / powerOfTen n
  else if x == 0 then x
  else scaleDown (x / powerOfTen 308) (n - 308)
termination_by n

/-- The number `m * 10 ^ e` for a significand below `2 ^ 64`, if that is finite. -/
def scaled (m : Nat) (e : Int) : Option Float :=
  let x := m.toUInt64.toFloat
  if 0 ≤ e then scaleUp x e.toNat else some (scaleDown x (-e).toNat)

/-- The floating-point number `m * 10 ^ e` with the sign of a written number, in its shortest form. -/
def Numeral.real (n : Numeral) (m : Nat) (e : Int) : Except Fault Found :=
  match scaled m e with
  | none => .error .malformed
  | some x => .ok (.real (.ofFloat (if n.negative then -x else x)))

def Numeral.shift (n : Numeral) : Int :=
  match n.exponent with
  | none => 0
  | some (negative, digits) => if negative then -(natOf digits) else natOf digits

def Numeral.value (n : Numeral) : Except Fault Found :=
  let (m, left) := gather 0 n.whole
  if left = 0 ∧ n.fraction = none ∧ n.exponent = none then
    if n.negative = false then .ok (.integer m)
    else if 0 < m ∧ m ≤ Nat.pow 2 63 then .ok (.integer (-m))
    else n.real m 0
  else
    let fraction := n.fraction.getD []
    let (m, unused) := gather m fraction
    n.real m (left - (fraction.length - unused : Nat) + n.shift)

end MinerInfo.Json
