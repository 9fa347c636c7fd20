import MinerInfo.Json.Fault

/-! String literals. A literal is first taken apart into code points, of which those of escapes may be
surrogates, and then put together as a text. A literal that is only stepped over need not spell one. -/

namespace MinerInfo.Json

/-- A string literal: its code points, and whether it comes to its closing quotation mark or to a fault. -/
structure Literal where
  points : List Nat
  ending : Except Fault Unit

def hexDigit? (c : Char) : Option Nat :=
  if c.toNat < 0x80 then (Hex.value? c.toUInt8).map UInt8.toNat else none

/-- The number that four hexadecimal digits spell. -/
def hexUnit? (a b c d : Char) : Option Nat := do
  return (((← hexDigit? a) * 16 + (← hexDigit? b)) * 16 + (← hexDigit? c)) * 16 + (← hexDigit? d)

/-- The code point of an escape of one character. -/
def shortEscape? (c : Char) : Option Nat :=
  if c = '"' ∨ c = '\\' ∨ c = '/' then some c.toNat
  else if c = 'b' then some 0x08
  else if c = 'f' then some 0x0c
  else if c = 'n' then some 0x0a
  else if c = 'r' then some 0x0d
  else if c = 't' then some 0x09
  else none

/-- The fault of a numeric escape that `s` should continue: it needs four bytes, and digits in them. -/
def unitFault (s : Text) : Fault := if s.utf8.length < 4 then .truncated else .malformed

/-- A literal with one code point more in front. -/
def Literal.cons (n : Nat) : Literal × Text → Literal × Text
  | (l, rest) => (⟨n :: l.points, l.ending⟩, rest)

/-- A literal that comes to a fault at once; nothing after it is looked at. -/
def Literal.cut (f : Fault) : Literal × Text := (⟨[], .error f⟩, [])

/-- The rest of a literal of which the opening quotation mark has been read, and the text after it. -/
def Literal.scan : Text → Literal × Text
  | [] => cut .truncated
  | '"' :: rest => (⟨[], .ok ()⟩, rest)
  | ['\\'] => cut .truncated
  | '\\' :: 'u' :: a :: b :: c :: d :: rest =>
    match hexUnit? a b c d with
    | some n => cons n (scan rest)
    | none => cut .malformed
  | '\\' :: 'u' :: rest => cut (unitFault rest)
  | '\\' :: c :: rest =>
    match shortEscape? c with
    | some n => cons n (scan rest)
    | none => cut .malformed
  | c :: rest => if c.toNat < 0x20 then cut .malformed else cons c.toNat (scan rest)

/-- The first halves of surrogate pairs. -/
def isHigh (n : Nat) : Bool := 0xd800 ≤ n && n < 0xdc00

/-- The second halves of surrogate pairs. -/
def isLow (n : Nat) : Bool := 0xdc00 ≤ n && n < 0xe000

def pairChar (high low : Nat) : Char := Char.ofNat (0x10000 + (high - 0xd800) * 0x400 + (low - 0xdc00))

/-- The text that code points spell in front of the given ending. A surrogate without its partner is a
fault as soon as the partner does not come. -/
def spell (ending : Except Fault Unit) : List Nat → Except Fault Text
  | [] => ending.map fun _ => []
  | n :: rest =>
    if isLow n then .error .malformed
    else if isHigh n then
      match rest with
      | [] => ending.bind fun _ => .error .malformed
      | low :: rest =>
        if isLow low then (spell ending rest).map (pairChar n low :: ·) else .error .malformed
    else (spell ending rest).map (Char.ofNat n :: ·)

def Literal.text (l : Literal) : Except Fault Text := spell l.ending l.points

end MinerInfo.Json
