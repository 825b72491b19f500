import LosslessCss.Text.Escaped

/-!
# Quoted text

Listings and outlines show the texts of a style sheet between double quotes.  Inside, the quote and
the backslash stand behind a backslash; tab, line feed, carriage return and the null character have
short names; any other character that `isEscaped` names is written as its code point in hexadecimal.

The writing of a text is the concatenation of the writings of its characters (`quoteChar`).
-/

namespace LosslessCss.Text

/-- A printable character of ASCII, which needs no look at the table. -/
def isPlain (c : Char) : Bool := ' ' ≤ c && c ≤ '~'

/-- The writing of one character inside quotes. -/
def quoteChar (c : Char) : List Char :=
  if c = '"' then ['\\', '"']
  else if c = '\\' then ['\\', '\\']
  else if isPlain c then [c]
  else if c = '\n' then ['\\', 'n']
  else if c = '\r' then ['\\', 'r']
  else if c = '\t' then ['\\', 't']
  else if c = '\x00' then ['\\', '0']
  else if isEscaped c then '\\' :: 'u' :: '\x7b' :: (Nat.toDigits 16 c.toNat ++ ['\x7d'])
  else [c]

/-- **A text between double quotes.** -/
def quote (text : String) : String :=
  String.ofList ('"' :: (text.toList.flatMap quoteChar ++ ['"']))

end LosslessCss.Text
