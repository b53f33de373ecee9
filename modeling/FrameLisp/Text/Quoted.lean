import FrameLisp.Text.Blank

/-!
# Quoted names

A name shown inside double quotes, so that its extent and its invisible characters can be seen.
The quote and the backslash are escaped, the usual control characters have their short escapes,
and any other character that would not show is written by its code point.
-/

namespace FrameLisp

namespace Text

/-- A character that leaves no mark of its own: a control character, a blank other than the
ordinary space, a formatting character, or one reserved for private use. -/
def isInvisible (c : Char) : Bool :=
  let n := c.toNat
  n < 0x20 || (0x7F ≤ n && n < 0xA0) || (isBlank c && c != ' ') || n == 0xAD ||
    (0x200B ≤ n && n ≤ 0x200F) || (0x202A ≤ n && n ≤ 0x202E) || (0x2060 ≤ n && n ≤ 0x206F) ||
    (0xE000 ≤ n && n ≤ 0xF8FF) || n == 0xFEFF || (0xFFF0 ≤ n && n ≤ 0xFFFB) || 0xE0000 ≤ n

/-- The lowercase hexadecimal digits of a code point, without padding. -/
def hexDigits (n : Nat) : List Char := Nat.toDigits 16 n

/-- One character of a quoted name. -/
def quoteChar (c : Char) : List Char :=
  if c = '"' then ['\\', '"']
  else if c = '\\' then ['\\', '\\']
  else if c = '\t' then ['\\', 't']
  else if c = '\n' then ['\\', 'n']
  else if c = '\r' then ['\\', 'r']
  else if c.toNat = 0 then ['\\', '0']
  else if isInvisible c then ['\\', 'u', '\x7b'] ++ hexDigits c.toNat ++ ['\x7d']
  else [c]

/-- The name in double quotes, with every invisible character spelled out. -/
def quoted (s : String) : String := String.ofList ('"' :: s.toList.flatMap quoteChar ++ ['"'])

end Text

end FrameLisp
