import ExpiringCache.Text.Unprintable
import ExpiringCache.Text.Combining

/-!
# Quoted text

A text between double quotes, for messages. The quote and the backslash take a backslash in
front; NUL, tab, carriage return and line feed have escapes of their own; characters without a
printed form and combining characters are written by their code point in hexadecimal. Every other
character, the apostrophe included, stands for itself.
-/

namespace ExpiringCache.Text

def hexadecimal (n : Nat) : List Char := Nat.toDigits 16 n

def escapedByCode (c : Char) : Bool := isCombining c || isUnprintable c

/-- How one character is written inside the quotes. -/
def escaped (c : Char) : List Char :=
  if c = '\x00' then ['\\', '0']
  else if c = '\t' then ['\\', 't']
  else if c = '\r' then ['\\', 'r']
  else if c = '\n' then ['\\', 'n']
  else if c = '"' ∨ c = '\\' then ['\\', c]
  else if escapedByCode c then '\\' :: 'u' :: '{' :: hexadecimal c.toNat ++ ['}']
  else [c]

/-- The text in double quotes. -/
def quoted (s : String) : String :=
  "\"" ++ String.ofList (s.toList.flatMap escaped) ++ "\""

end ExpiringCache.Text
