import Rpal.Source

/-!
# Diagnostics

A diagnostic is a message about a place in the source. Its report shows the line that holds the
place and marks the place below it with carets: one for a point, and one for every character of a
span that is on that line.
-/

namespace Rpal

/-- The place that a diagnostic is about. -/
inductive Highlight where
  | point (address : Nat)
  | span (range : Span)
deriving DecidableEq, Inhabited

namespace Highlight

/-- The first address of the place. -/
def start : Highlight → Nat
  | point address => address
  | span range => range.start

/-- The number of addresses of the place; a point is one address. -/
def length : Highlight → Nat
  | point _ => 1
  | span range => range.length

/-- The first address after the place. -/
def stop (h : Highlight) : Nat :=
  h.start + h.length

/-- The marks under `cs`, the rest of a line from byte `position` on, for a point
    at byte `target`. -/
def pointMarks (target position : Nat) : List Char → List Char
  | [] => ['^']
  | c :: cs =>
    if position = target then ['^']
    else ' ' :: pointMarks target (position + c.utf8Size) cs

/-- The marks under `cs`, the rest of a line from byte `position` on, for the bytes from `first` to
    before `last`. -/
def spanMarks (first last position : Nat) : List Char → List Char
  | [] => []
  | c :: cs =>
    if last ≤ position then []
    else
      (if first ≤ position then '^' else ' ') :: spanMarks first last (position + c.utf8Size) cs

/-- The marks of the place under `line`. A span that starts at the end of the line
    is marked there. -/
def marks (h : Highlight) (line : Line) : List Char :=
  match h with
  | point address => pointMarks (address - line.start) 0 line.content
  | span range =>
    let first := range.start - line.start
    let last := range.stop - line.start
    spanMarks first last 0 line.content ++
      (if Text.byteLength line.content ≤ first then ['^'] else [])

end Highlight

/-- A message about a place in the source. -/
structure Diagnostic where
  highlight : Highlight
  message : String
deriving DecidableEq, Inhabited

namespace Diagnostic

/-- The five lines of a report about a place in `line` of the file `name`. -/
def reportLines (d : Diagnostic) (name : String) (line : Line) : List String :=
  let number := toString line.number
  let margin := String.ofList (number.toList.map fun _ => ' ')
  [name ++ ":" ++ number ++ "\n",
   margin ++ " |\n",
   number ++ " | " ++ String.ofList line.content ++ "\n",
   margin ++ " | " ++ String.ofList (d.highlight.marks line) ++ "\n",
   d.message ++ "\n"]

/-- The five lines of a report about a place in no file. -/
def unplacedLines (d : Diagnostic) : List String :=
  ["<unknown>\n", " |\n", " |\n", " |\n", d.message ++ "\n"]

/-- The report of `d`, in five lines; `none` when the place starts inside a character. -/
def report? (files : SourceFiles) (d : Diagnostic) : Option (List String) :=
  match files.byAddress? d.highlight.start with
  | none => some d.unplacedLines
  | some f => (f.line? d.highlight.start).map (d.reportLines f.name)

end Diagnostic

end Rpal
