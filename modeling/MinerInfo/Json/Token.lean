import MinerInfo.Json.Literal
import MinerInfo.Json.Numeral

/-! The tokens of a JSON text. A text that is no JSON has tokens too: the last of them is the one that is
broken, and says how. Whether that matters is for the reader of the tokens, who may stop before. -/

namespace MinerInfo.Json

/-- A token. -/
inductive Token where
  | openArray
  | closeArray
  | openObject
  | closeObject
  | comma
  | colon
  | null
  | boolean (b : Bool)
  | number (n : Except Fault Numeral)
  | string (l : Literal)
  /-- Characters that begin no token. -/
  | stray (f : Fault)

/-- The blanks between tokens. -/
def isBlank (c : Char) : Bool := c = ' ' || c = '\n' || c = '\t' || c = '\r'

/-- The token of a word that has to go on with `tail`. -/
def word (token : Token) (tail s : Text) : Token × Text :=
  if tail.isPrefixOf s then (token, s.drop tail.length)
  else (.stray (if s.isPrefixOf tail then .truncated else .malformed), [])

/-- The token of a number. -/
def numberToken (s : Text) : Token × Text :=
  match Numeral.scan s with
  | .ok (n, rest) => (.number (.ok n), rest)
  | .error f => (.number (.error f), [])

/-- The token of a single character that stands for itself. -/
def mark? (c : Char) : Option Token :=
  if c = '[' then some .openArray
  else if c = ']' then some .closeArray
  else if c = '\x7b' then some .openObject
  else if c = '\x7d' then some .closeObject
  else if c = ',' then some .comma
  else if c = ':' then some .colon
  else none

/-- The token that begins with the character `c`, and the text after it. After a broken token there is
nothing to read. -/
def lex (c : Char) (s : Text) : Token × Text :=
  match mark? c with
  | some token => (token, s)
  | none =>
    if c = '"' then (.string (Literal.scan s).1, (Literal.scan s).2)
    else if c = 'n' then word .null ['u', 'l', 'l'] s
    else if c = 't' then word (.boolean true) ['r', 'u', 'e'] s
    else if c = 'f' then word (.boolean false) ['a', 'l', 's', 'e'] s
    else if c = '-' ∨ c.isDigit then numberToken (c :: s)
    else (.stray .malformed, [])

theorem Literal.scan_length_le (s : Text) : (scan s).2.length ≤ s.length := by
  fun_induction Literal.scan s <;> simp_all [cut, cons] <;> omega

theorem word_length_le (token : Token) (tail s : Text) : (word token tail s).2.length ≤ s.length := by
  unfold word
  split <;> simp

theorem numberToken_length_le (c : Char) (s : Text) : (numberToken (c :: s)).2.length ≤ s.length := by
  unfold numberToken
  split
  · rename_i h
    exact Nat.le_of_lt_succ (Numeral.scan_length_lt h)
  · simp

theorem lex_length_le (c : Char) (s : Text) : (lex c s).2.length ≤ s.length := by
  unfold lex
  split
  · exact Nat.le_refl _
  · repeat' split
    · exact Literal.scan_length_le s
    · exact word_length_le _ _ s
    · exact word_length_le _ _ s
    · exact word_length_le _ _ s
    · exact numberToken_length_le c s
    · exact Nat.zero_le _

/-- The tokens of a text, up to its end or to the first that is broken. -/
def tokens (s : Text) : List Token :=
  match _h : s.dropWhile isBlank with
  | [] => []
  | c :: rest => (lex c rest).1 :: tokens (lex c rest).2
termination_by s.length
decreasing_by
  have h1 := (List.dropWhile_suffix isBlank (l := s)).length_le
  have h2 := lex_length_le c rest
  rw [_h, List.length_cons] at h1
  omega

theorem tokens_of_blank {s : Text} (h : s.dropWhile isBlank = []) : tokens s = [] := by
  rw [tokens]
  split
  · rfl
  · simp_all

theorem tokens_of_cons {s : Text} {c : Char} {rest : Text} (h : s.dropWhile isBlank = c :: rest) :
    tokens s = (lex c rest).1 :: tokens (lex c rest).2 := by
  rw [tokens]
  split <;> simp_all

end MinerInfo.Json
