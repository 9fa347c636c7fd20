import MinerInfo.Json.Token

/-! JSON values and the texts that write them. A value is written in many ways: with blanks between the tokens, with
characters as they are or as escapes, with the letters of escapes and exponents in either case. -/

namespace MinerInfo.Json

/-- A JSON value. The members of an object stand as they are written, in their order and with repeated names. -/
inductive Value where
  | null
  | boolean (b : Bool)
  | number (n : Numeral)
  | string (t : Text)
  | array (elements : List Value)
  | object (members : List (Text × Value))

def Blank (s : Text) : Prop := ∀ c ∈ s, isBlank c = true

/-- The letters of the short escapes, and the characters that these stand for. -/
def shortEscapes : List (Char × Char) :=
  [('"', '"'), ('\\', '\\'), ('/', '/'), ('b', '\x08'), ('f', '\x0c'), ('n', '\n'), ('r', '\r'), ('t', '\t')]

/-- The four hexadecimal digits of a number. -/
def WritesUnit (s : Text) (n : Nat) : Prop :=
  n < 0x10000 ∧ Hex.lower s = Hex.encode [UInt8.ofNat (n / 0x100), UInt8.ofNat (n % 0x100)]

/-- The first half of the surrogate pair of a character beyond four digits. -/
def highHalf (c : Char) : Nat := 0xd800 + (c.toNat - 0x10000) / 0x400

/-- The second half of the surrogate pair of a character beyond four digits. -/
def lowHalf (c : Char) : Nat := 0xdc00 + (c.toNat - 0x10000) % 0x400

/-- What stands between quotation marks for a text. -/
inductive WritesText : Text → Text → Prop where
  | nil : WritesText [] []
  | plain {c : Char} {s t : Text} (hquote : c ≠ '"') (hback : c ≠ '\\') (hctrl : 0x20 ≤ c.toNat)
      (h : WritesText s t) : WritesText (c :: s) (c :: t)
  | short {letter c : Char} {s t : Text} (hletter : (letter, c) ∈ shortEscapes) (h : WritesText s t) :
      WritesText ('\\' :: letter :: s) (c :: t)
  | unit {c : Char} {u s t : Text} (hu : WritesUnit u c.toNat) (h : WritesText s t) :
      WritesText ('\\' :: 'u' :: (u ++ s)) (c :: t)
  | pair {c : Char} {u v s t : Text} (hc : 0x10000 ≤ c.toNat) (hu : WritesUnit u (highHalf c))
      (hv : WritesUnit v (lowHalf c)) (h : WritesText s t) :
      WritesText ('\\' :: 'u' :: (u ++ '\\' :: 'u' :: (v ++ s))) (c :: t)

def WritesDigits (s : Text) (digits : List Nat) : Prop :=
  digits ≠ [] ∧ (∀ d ∈ digits, d < 10) ∧ s = digits.map Nat.digitChar

inductive WritesFraction : Text → Option (List Nat) → Prop where
  | none : WritesFraction [] none
  | some {s : Text} {digits : List Nat} (h : WritesDigits s digits) : WritesFraction ('.' :: s) (some digits)

/-- The sign of an exponent. -/
inductive WritesSign : Text → Bool → Prop where
  | none : WritesSign [] false
  | plus : WritesSign ['+'] false
  | minus : WritesSign ['-'] true

inductive WritesExponent : Text → Option (Bool × List Nat) → Prop where
  | none : WritesExponent [] none
  | some {letter : Char} {sign s : Text} {negative : Bool} {digits : List Nat}
      (hletter : letter = 'e' ∨ letter = 'E') (hsign : WritesSign sign negative) (h : WritesDigits s digits) :
      WritesExponent (letter :: (sign ++ s)) (some (negative, digits))

/-- A number. Its whole part does not begin with a zero, unless it is zero. -/
inductive WritesNumber : Text → Numeral → Prop where
  | parts {n : Numeral} {whole fraction exponent : Text} (hwhole : WritesDigits whole n.whole)
      (hzero : n.whole.head? = some 0 → n.whole = [0]) (hfraction : WritesFraction fraction n.fraction)
      (hexponent : WritesExponent exponent n.exponent) :
      WritesNumber ((if n.negative then ['-'] else []) ++ (whole ++ (fraction ++ exponent))) n

mutual

/-- A text that writes a value, from its first character to its last. -/
inductive WritesValue : Text → Value → Prop where
  | null : WritesValue "null".toList .null
  | true : WritesValue "true".toList (.boolean true)
  | false : WritesValue "false".toList (.boolean false)
  | number {s : Text} {n : Numeral} (h : WritesNumber s n) : WritesValue s (.number n)
  | string {s t : Text} (h : WritesText s t) : WritesValue ('"' :: s ++ ['"']) (.string t)
  | emptyArray {s : Text} (h : Blank s) : WritesValue ('[' :: s ++ [']']) (.array [])
  | array {s : Text} {vs : List Value} (h : WritesElements s vs) : WritesValue ('[' :: s ++ [']']) (.array vs)
  | emptyObject {s : Text} (h : Blank s) : WritesValue ('\x7b' :: s ++ ['\x7d']) (.object [])
  | object {s : Text} {ms : List (Text × Value)} (h : WritesMembers s ms) :
      WritesValue ('\x7b' :: s ++ ['\x7d']) (.object ms)

/-- Elements with commas between them, of which there is at least one. -/
inductive WritesElements : Text → List Value → Prop where
  | last {b s b' : Text} {v : Value} (hb : Blank b) (h : WritesValue s v) (hb' : Blank b') :
      WritesElements (b ++ (s ++ b')) [v]
  | cons {b s b' s' : Text} {v : Value} {vs : List Value} (hb : Blank b) (h : WritesValue s v) (hb' : Blank b')
      (hrest : WritesElements s' vs) : WritesElements (b ++ (s ++ (b' ++ ',' :: s'))) (v :: vs)

/-- A member: its name, a colon, and its value. -/
inductive WritesMember : Text → Text × Value → Prop where
  | parts {name b b' s t : Text} {v : Value} (hname : WritesText name t) (hb : Blank b) (hb' : Blank b')
      (h : WritesValue s v) : WritesMember ('"' :: (name ++ '"' :: (b ++ ':' :: (b' ++ s)))) (t, v)

/-- Members with commas between them, of which there is at least one. -/
inductive WritesMembers : Text → List (Text × Value) → Prop where
  | last {b s b' : Text} {m : Text × Value} (hb : Blank b) (h : WritesMember s m) (hb' : Blank b') :
      WritesMembers (b ++ (s ++ b')) [m]
  | cons {b s b' s' : Text} {m : Text × Value} {ms : List (Text × Value)} (hb : Blank b) (h : WritesMember s m)
      (hb' : Blank b') (hrest : WritesMembers s' ms) : WritesMembers (b ++ (s ++ (b' ++ ',' :: s'))) (m :: ms)

end

/-- A text that writes a value, with blanks around it. -/
def Writes (s : Text) (v : Value) : Prop :=
  ∃ b inner b', Blank b ∧ WritesValue inner v ∧ Blank b' ∧ s = b ++ (inner ++ b')

end MinerInfo.Json
