import Marginalia.Text.Basic

/-!
# Quoted text

The strings of a JSON document: a text between quotes, in which quotes,
backslashes and the characters below the space are escaped, by a letter where
there is one and by four hexadecimal digits otherwise. All other characters
stand for themselves.

* `Quoted.escapeChar` : a character between the quotes.
* `Quoted.quote`      : the quoted text.
-/

namespace Marginalia

namespace Quoted

def hexDigit (n : Nat) : Char :=
  if n < 10 then Char.ofNat ('0'.toNat + n) else Char.ofNat ('a'.toNat + (n - 10))

/-- A character as it stands between quotes. -/
def escapeChar (c : Char) : Text :=
  if c = '"' then ['\\', '"']
  else if c = '\\' then ['\\', '\\']
  else if c = '\x08' then ['\\', 'b']
  else if c = '\t' then ['\\', 't']
  else if c = '\n' then ['\\', 'n']
  else if c = '\x0c' then ['\\', 'f']
  else if c = '\r' then ['\\', 'r']
  else if c.toNat < 0x20 then ['\\', 'u', '0', '0', hexDigit (c.toNat / 16), hexDigit (c.toNat % 16)]
  else [c]

def quote (t : Text) : Text :=
  '"' :: t.flatMap escapeChar ++ ['"']

end Quoted

end Marginalia
