import MinerInfo.Text.Concealed

/-! Byte strings and texts. A text is the list of its characters, and its size on the wire is that of
its UTF-8 bytes. In messages characters and texts stand quoted: the delimiter and the backslash are
escaped, and so is every character that would not show. -/

namespace MinerInfo

/-- A byte string. -/
abbrev Bytes := List UInt8

/-- A text, character by character. -/
abbrev Text := List Char

/-- The UTF-8 bytes of a text. -/
def Text.utf8 (t : Text) : Bytes := t.flatMap String.utf8EncodeChar

@[simp] theorem Text.utf8_nil : Text.utf8 [] = [] := rfl

@[simp] theorem Text.utf8_cons (c : Char) (t : Text) :
    Text.utf8 (c :: t) = String.utf8EncodeChar c ++ Text.utf8 t := rfl

@[simp] theorem Text.utf8_append (s t : Text) : Text.utf8 (s ++ t) = Text.utf8 s ++ Text.utf8 t := by
  simp [Text.utf8]

/-- The written form of a character between two delimiters. -/
def Text.escaped (delimiter c : Char) : Text :=
  if c = '\x00' then ['\\', '0']
  else if c = '\t' then ['\\', 't']
  else if c = '\n' then ['\\', 'n']
  else if c = '\r' then ['\\', 'r']
  else if c = '\\' then ['\\', '\\']
  else if c = delimiter then ['\\', c]
  else if isConcealed c then ['\\', 'u', '\x7b'] ++ Nat.toDigits 16 c.toNat ++ ['\x7d']
  else [c]

def Text.quotedChar (c : Char) : Text := '\'' :: escaped '\'' c ++ ['\'']

def Text.quoted (t : Text) : Text := '"' :: t.flatMap (escaped '"') ++ ['"']

end MinerInfo
