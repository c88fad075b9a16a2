import Demand.Text.Combining
import Demand.Text.Hidden

/-! Quoted text: a text between double quotes in which nothing is invisible.

Quotes and backslashes are escaped by a backslash, the common controls have a letter of their
own, and any other character that shows nothing by itself, or is a mark that needs a base, is
written by its number in hexadecimal. -/

namespace Demand.Text

/-- The digits of a number in base 16, in lower case and without leading zeros. -/
def hexadecimal (n : Nat) : List Char :=
  Nat.toDigits 16 n

/-- What a character is written as between the quotes. -/
def quoteChar (c : Char) : List Char :=
  if c = '\x00' then ['\\', '0']
  else if c = '\t' then ['\\', 't']
  else if c = '\r' then ['\\', 'r']
  else if c = '\n' then ['\\', 'n']
  else if c = '"' then ['\\', '"']
  else if c = '\\' then ['\\', '\\']
  else if 0x20 ≤ c.toNat && c.toNat < 0x7F then [c]
  else if isHidden c || isCombining c then
    ['\\', 'u', '\x7b'] ++ hexadecimal c.toNat ++ ['\x7d']
  else [c]

/-- A text between quotes. -/
def quote (s : String) : String :=
  String.ofList (['"'] ++ s.toList.flatMap quoteChar ++ ['"'])

end Demand.Text
