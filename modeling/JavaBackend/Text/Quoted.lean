/-!
# Quoted text

How characters stand between quotes in Java source. A character that would end the literal, the
backslash, the control characters with a short escape, and every other control character are
written as an escape; all else stands as it is.

The functions work on `List Char`, so that what they do to a character is seen one character at a
time.
-/

namespace JavaBackend.Text

/-- The control characters: U+0000 to U+001F and U+007F to U+009F. -/
def isControl (c : Char) : Bool :=
  c.toNat < 0x20 || (0x7f ≤ c.toNat && c.toNat ≤ 0x9f)

/-- The last four hexadecimal digits of a number, in lower case, the most significant first. -/
def hexDigits (n : Nat) : List Char :=
  [n / 4096 % 16, n / 256 % 16, n / 16 % 16, n % 16].map Nat.digitChar

/-- What stands for one character inside a literal that the character `quote` delimits. -/
def escape (quote c : Char) : List Char :=
  if c = '\\' then ['\\', '\\']
  else if c = '\n' then ['\\', 'n']
  else if c = '\r' then ['\\', 'r']
  else if c = '\t' then ['\\', 't']
  else if c = '\x08' then ['\\', 'b']
  else if c = '\x0c' then ['\\', 'f']
  else if c = quote then ['\\', c]
  else if isControl c then '\\' :: 'u' :: hexDigits c.toNat
  else [c]

/-- The characters of a literal: the escaped content between two quotes. -/
def quoted (quote : Char) (content : List Char) : List Char :=
  quote :: (content.flatMap (escape quote) ++ [quote])

end JavaBackend.Text
