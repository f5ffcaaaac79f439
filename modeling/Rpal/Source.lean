import Rpal.Text.Bytes

/-!
# Source files and their addresses

Every file of a session occupies a range of one address space. A file keeps one address more than it
has bytes, so that the end of its text is an address of its own, and the next file starts after
that. The address at which the next file starts is kept beside the files.

Addresses are natural numbers here, without a bound. In a session, they have 32 bits: what is said
about them is meant for files that fit, that is, whose ends are below `2 ^ 32`.

Addresses resolve to the file that holds them (`SourceFiles.byAddress?`) and to a line of that file
(`SourceFile.line?`). An address inside a character belongs to a line number, but there is no line
to show for it.
-/

namespace Rpal

/-- A range of addresses. -/
structure Span where
  start : Nat
  length : Nat
deriving DecidableEq, Inhabited

/-- The first address after the range. -/
def Span.stop (s : Span) : Nat :=
  s.start + s.length

/-- A named text together with the address of its first byte. -/
structure SourceFile where
  name : String
  start : Nat
  content : String
deriving DecidableEq, Inhabited

/-- One line of a file: its number from 1, the address of its first byte and its text. -/
structure Line where
  number : Nat
  start : Nat
  content : List Char
deriving DecidableEq, Inhabited

namespace SourceFile

/-- The characters of the file. -/
def chars (f : SourceFile) : List Char :=
  f.content.toList

/-- The number of bytes of the file. -/
def size (f : SourceFile) : Nat :=
  Text.byteLength f.chars

/-- The address of the end of the text. -/
def stop (f : SourceFile) : Nat :=
  f.start + f.size

/-- `address` lies in the file, its end included. -/
def contains (f : SourceFile) (address : Nat) : Bool :=
  f.start ≤ address && address ≤ f.stop

/-- The position of `address` in the file; addresses past the end count as the end. -/
def position (f : SourceFile) (address : Nat) : Nat :=
  min (address - f.start) f.size

/-- The number, from 1, of the line that holds `address`. -/
def lineNumber (f : SourceFile) (address : Nat) : Nat :=
  1 + (Text.startingBefore (f.position address) f.chars).count '\n'

/-- The line that holds `address`, unless the address is inside a character. A newline belongs to
    the line that it ends. -/
def line? (f : SourceFile) (address : Nat) : Option Line :=
  (Text.splitAtByte? (f.position address) f.chars).map fun parts =>
    let head := (parts.1.reverse.takeWhile (· ≠ '\n')).reverse
    { number := f.lineNumber address
      start := f.start + (f.position address - Text.byteLength head)
      content := head ++ parts.2.takeWhile (· ≠ '\n') }

end SourceFile

/-- The files of a session, in the order in which they were added, and the address that the next file
    will start at. -/
structure SourceFiles where
  files : List SourceFile
  nextAddress : Nat
deriving Inhabited

namespace SourceFiles

/-- No files. -/
def empty : SourceFiles :=
  { files := [], nextAddress := 0 }

/-- The file that `add` appends. -/
def place (s : SourceFiles) (name content : String) : SourceFile :=
  { name, start := s.nextAddress, content }

/-- Appends a file at the next address, and moves that address on by the bytes of the file and one
    more. -/
def add (s : SourceFiles) (name content : String) : SourceFiles :=
  { files := s.files ++ [s.place name content]
    nextAddress := s.nextAddress + (Text.byteLength content.toList + 1) }

/-- The first file of that name. -/
def byName? (s : SourceFiles) (name : String) : Option SourceFile :=
  s.files.find? (·.name = name)

/-- The first file that contains `address`. -/
def byAddress? (s : SourceFiles) (address : Nat) : Option SourceFile :=
  s.files.find? (·.contains address)

end SourceFiles

end Rpal
