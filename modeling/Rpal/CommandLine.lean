import Rpal.Control.Printer
import Rpal.Program
import Rpal.Tree.Printer

/-!
# The command line

The command takes the name of a file and evaluates the program in it, or prints one of its forms
instead. Its arguments are read by `Options.ofArguments?`; what it then does with the bytes of the
file is a `Job`, which is finished at once or leaves a machine to be run.
-/

namespace Rpal

namespace CommandLine

/-- What is printed in place of evaluating the program. -/
inductive View where
  /-- The tree as it was written. -/
  | written
  /-- The tree in canonical form. -/
  | standardized
  | control
deriving DecidableEq, Inhabited

/-- What the arguments ask for. -/
structure Options where
  view : Option View
  file : String
deriving DecidableEq, Inhabited

/-! ### Arguments -/

/-- Arguments in the course of being read. The size of the heap is checked, and used for nothing
    else. -/
structure Arguments where
  view : Option View
  heapCapacity : Option Nat
  files : List String
deriving DecidableEq, Inhabited

namespace Arguments

/-- No arguments. -/
def none : Arguments :=
  { view := .none, heapCapacity := .none, files := [] }

/-- Asks for a view. Only one can be asked for, and only once. -/
def withView (a : Arguments) (v : View) : Option Arguments :=
  if a.view.isNone then some { a with view := some v } else .none

/-- The number of bytes that `text` spells, which has to fit into 64 bits. -/
def bytes? (text : String) : Option Nat :=
  let digits := match text.toList with
    | '+' :: digits => digits
    | digits => digits
  (Integer.ofDigits? digits).filter (· < UInt64.size)

/-- Sets the size of the heap, which can be done once. -/
def withHeapCapacity (a : Arguments) (text : String) : Option Arguments :=
  if a.heapCapacity.isNone then do return { a with heapCapacity := some (← bytes? text) }
  else .none

/-- Names a file. -/
def withFile (a : Arguments) (file : String) : Arguments :=
  { a with files := a.files ++ [file] }

/-- The switch that asks for a view. -/
def view? (argument : String) : Option View :=
  if argument = "--ast" || argument = "-ast" then some .written
  else if argument = "--st" || argument = "-st" then some .standardized
  else if argument = "--control" then some .control
  else .none

/-- `argument` is a switch, known or not. -/
def isSwitch (argument : String) : Bool :=
  match argument.toList with
  | '-' :: _ :: _ => true
  | _ => false

/-- The value of the switch `name` if `argument` is that switch together with its value. -/
def valueOf? (name argument : String) : Option String :=
  ((name ++ "=").toList.isPrefixOf? argument.toList).map String.ofList

/-- An argument behind the one that ends the switches. The switches with one dash are spelled with
    two there as well. -/
def fileName (argument : String) : String :=
  if argument = "-ast" then "--ast" else if argument = "-st" then "--st" else argument

/-- Reads arguments from left to right, behind those in `a`. -/
def read (a : Arguments) : List String → Option Arguments
  | [] => some a
  | "--" :: rest => some (rest.foldl (fun a argument => a.withFile (fileName argument)) a)
  | "--heap-capacity" :: rest =>
    match rest with
    | [] => .none
    | text :: rest => do (← a.withHeapCapacity text).read rest
  | argument :: rest =>
    match view? argument with
    | some v => do (← a.withView v).read rest
    | .none =>
      match valueOf? "--heap-capacity" argument with
      | some text => do (← a.withHeapCapacity text).read rest
      | .none => if isSwitch argument then .none else (a.withFile argument).read rest

end Arguments

/-- The options that the arguments spell; `none` when they cannot be understood. -/
def Options.ofArguments? (arguments : List String) : Option Options := do
  let a ← Arguments.none.read arguments
  match a.files with
  | [file] => if file.isEmpty then .none else some { view := a.view, file }
  | _ => .none

/-! ### Jobs -/

/-- What the command leaves behind: its status, and the bytes and the text that it prints. -/
structure Reply where
  status : Nat
  out : ByteArray
  err : String
deriving Inhabited

namespace Reply

/-- The command did what it was asked for. -/
def success (text : String) : Reply :=
  { status := 0, out := text.toUTF8, err := "" }

/-- The command failed. -/
def failure (message : String) : Reply :=
  { status := 1, out := .empty, err := message ++ "\n" }

/-- The reply after an evaluation, of which `out` was printed. The output ends with a newline in any
    case. -/
def ofResult (result : Except EvalError (Option Value)) (out : ByteArray) : Reply :=
  { status := match result with | .ok _ => 0 | .error _ => 1
    out := out ++ "\n".toUTF8
    err := match result with | .ok _ => "" | .error e => e.message ++ "\n" }

end Reply

/-- The work of the command. -/
inductive Job where
  | finished (r : Reply)
  | evaluate (m : Machine)

/-- A diagnostic as it is printed: its report without the blanks at the end. -/
def diagnosticText (files : SourceFiles) (d : Diagnostic) : String :=
  match d.report? files with
  | some lines => Text.trimEnd (String.join lines)
  | none => d.message

/-- The arena that is printed or evaluated. -/
def standardTree (t : Tree Label) : Except String Arena :=
  (Arena.ofTree t).standardForm.mapError StandardizeError.message

/-- What is done with the text of a file. -/
def Options.jobOfText (o : Options) (text : String) : Except String Job := do
  let files := SourceFiles.empty.add o.file text
  let t ← (SourceFiles.empty.place o.file text).tree.mapError (diagnosticText files)
  if o.view = some .written then
    return .finished (.success t.outline)
  let a ← standardTree t
  if o.view = some .standardized then
    return .finished (.success a.outline)
  let control ← a.control.mapError BuildError.message
  if o.view = some .control then
    return .finished (.success (control.render a))
  return .evaluate (Machine.start { arena := a, control } (.withRoom none))

/-- The text that the bytes of a file encode. -/
def decode (bytes : ByteArray) : Except String String :=
  match String.fromUTF8? bytes with
  | some text => .ok text
  | none => .error "stream did not contain valid UTF-8"

/-- What is done with the bytes of a file, or with the reason why it has none. -/
def Options.job (o : Options) (bytes : Except String ByteArray) : Job :=
  match bytes.bind decode with
  | .error reason => .finished (.failure ("couldn't read " ++ o.file ++ ": " ++ reason))
  | .ok text =>
    match o.jobOfText text with
    | .error message => .finished (.failure message)
    | .ok job => job

end CommandLine

end Rpal
