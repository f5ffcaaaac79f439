/-!
# Escape sequences in printed text

Strings keep their escape sequences as they were written. When a text is printed, a backslash before
a `t` becomes a tab, and after that a backslash before an `n` becomes a newline. All other
backslashes stay.
-/

namespace Rpal.Text

/-- Replaces every backslash that stands before `letter`, and that letter, by `c`. -/
def replaceEscape (letter c : Char) : List Char → List Char
  | '\\' :: d :: ds =>
    if d = letter then c :: replaceEscape letter c ds
    else '\\' :: replaceEscape letter c (d :: ds)
  | d :: ds => d :: replaceEscape letter c ds
  | [] => []

/-- `text` with its tabs and newlines in place of their escape sequences. -/
def expandEscapes (text : String) : String :=
  String.ofList (replaceEscape 'n' '\n' (replaceEscape 't' '\t' text.toList))

end Rpal.Text
