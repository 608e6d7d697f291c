import Polyglot.Text.Hidden

/-!
# Quoted text

A text between double quotes, as it stands in the dump of a value: quotes, backslashes and
the common controls are escaped by a letter, every other hidden character by its code point
in hexadecimal.
-/

set_option autoImplicit false

namespace Polyglot.Text

/-- The code point of a character in lower-case hexadecimal. -/
def hex (c : Char) : List Char :=
  Nat.toDigits 16 c.toNat

/-- How one character is written between the quotes. -/
def quotedChar (c : Char) : List Char :=
  if c == '"' then ['\\', '"']
  else if c == '\\' then ['\\', '\\']
  else if c == '\n' then ['\\', 'n']
  else if c == '\r' then ['\\', 'r']
  else if c == '\t' then ['\\', 't']
  else if c.toNat == 0 then ['\\', '0']
  else if c.toNat < 0x7F && 0x20 ≤ c.toNat then [c]
  else if isHidden c then ['\\', 'u', '\x7b'] ++ hex c ++ ['\x7d']
  else [c]

/-- The text between double quotes. -/
def quoted (s : String) : String :=
  String.ofList ('"' :: s.toList.flatMap quotedChar ++ ['"'])

/-- A list in brackets, its members parted by a comma and a blank. -/
def listed (items : List String) : String :=
  "[" ++ ", ".intercalate items ++ "]"

/-- `None`, or `Some` around the dump of the value. -/
def optional : Option String → String
  | none => "None"
  | some s => "Some(" ++ s ++ ")"

end Polyglot.Text
