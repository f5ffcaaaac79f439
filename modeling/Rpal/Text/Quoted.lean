import Rpal.Text.Combining
import Rpal.Text.Unprintable

/-!
# Quoted characters and strings

The form in which a diagnostic shows a character and a listing shows a string: between quotes, with
the characters that cannot be seen written as escapes. The quote itself is escaped, and only the
kind of quote that is in use.
-/

namespace Rpal.Text

/-- The digits of `n` to base sixteen, in lower case and without leading zeros. -/
def hexadecimal (n : Nat) : List Char :=
  Nat.toDigits 16 n

/-- `c` by its code point. -/
def codePointEscape (c : Char) : List Char :=
  ['\\', 'u', '\x7b'] ++ hexadecimal c.toNat ++ ['\x7d']

/-- `c` as it stands between two characters `quote`. -/
def escaped (quote c : Char) : List Char :=
  if c = '\t' then ['\\', 't']
  else if c = '\r' then ['\\', 'r']
  else if c = '\n' then ['\\', 'n']
  else if c = '\x00' then ['\\', '0']
  else if c = '\\' || c = quote then ['\\', c]
  else if isCombining c || isUnprintable c then codePointEscape c
  else [c]

/-- `c` between apostrophes. -/
def quotedChar (c : Char) : String :=
  String.ofList (['\x27'] ++ escaped '\x27' c ++ ['\x27'])

/-- `text` between double quotes. -/
def quotedString (text : String) : String :=
  String.ofList (['"'] ++ text.toList.flatMap (escaped '"') ++ ['"'])

end Rpal.Text
