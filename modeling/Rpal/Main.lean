import Rpal.CommandLine

/-!
# The program

The effects of the command line: reading a file, running a machine to its end, and printing.
-/

namespace Rpal.CommandLine

/-- What the command prints when its arguments cannot be understood. -/
def usage : String :=
  "usage: rpal [--ast | --st | --control] [--heap-capacity BYTES] FILE\n"

/-- The reason that the system gives for an error, where `reason` words it otherwise. -/
def systemReason (code : UInt32) (reason : String) : String :=
  match code with
  | 5 => "Input/output error"
  | 36 => "File name too long"
  | 40 => "Too many levels of symbolic links"
  | _ => reason.capitalize

/-- The reason why a file cannot be read, with the number of the error. The number may be given with
    either sign, and the reason with a small first letter. -/
def reasonOf (e : IO.Error) : String :=
  let withCode (reason : String) (code : UInt32) : String :=
    let code := min code (0 - code)
    systemReason code reason ++ " (os error " ++ toString code ++ ")"
  match e with
  | .noFileOrDirectory _ code reason => withCode reason code
  | .inappropriateType _ code reason => withCode reason code
  | .permissionDenied _ code reason => withCode reason code
  | .invalidArgument _ code reason => withCode reason code
  | .noSuchThing _ code reason => withCode reason code
  | .hardwareFault code reason => withCode reason code
  | .otherError code reason => withCode reason code
  | e => toString e

/-- The bytes of a file. -/
def readBytes (file : String) : IO (Except String ByteArray) := do
  try
    return .ok (← IO.FS.readBinFile file)
  catch e =>
    return .error (reasonOf e)

/-- Runs a machine until it halts. What it prints is passed on from time to time. -/
partial def complete (out : IO.FS.Stream) (m : Machine) : IO Reply := do
  match m.runFor 100000 with
  | .running m =>
    out.write m.sink.written
    out.flush
    complete out { m with sink := .withRoom none }
  | .halted result m => return .ofResult result m.sink.written

/-- Does a job and prints what it leaves. -/
def perform (j : Job) : IO UInt32 := do
  let out ← IO.getStdout
  let r ← match j with
    | .finished r => pure r
    | .evaluate m => complete out m
  out.write r.out
  out.flush
  IO.eprint r.err
  return r.status.toUInt32

end Rpal.CommandLine

/-- The command. -/
def main (arguments : List String) : IO UInt32 := do
  match Rpal.CommandLine.Options.ofArguments? arguments with
  | none =>
    IO.eprint Rpal.CommandLine.usage
    return 2
  | some options =>
    Rpal.CommandLine.perform (options.job (← Rpal.CommandLine.readBytes options.file))
