import Rpal.Arena.Standardize
import Rpal.Control.Flatten
import Rpal.Machine.Basic
import Rpal.Parser.Productions
import Rpal.Token.Scan

/-!
# From source text to a machine

The stages of a program's life, put together: the text of a file is read into a tree, the tree is
standardized and flattened, and a machine is set up to evaluate it.
-/

namespace Rpal

/-- Why a file is no program. -/
inductive ProgramError where
  /-- The text has no tree. -/
  | diagnostic (d : Diagnostic)
  | standardize (e : StandardizeError)
  | build (e : BuildError)
deriving DecidableEq, Inhabited

namespace ProgramError

/-- The error as text, without the place of a diagnostic. -/
def message : ProgramError → String
  | diagnostic d => d.message
  | standardize e => e.message
  | build e => e.message

end ProgramError

namespace SourceFile

/-- The tree of a file. -/
def tree (f : SourceFile) : Except Diagnostic (Tree Label) := do
  let tokens ← f.tokens.mapError ScanError.diagnostic
  (Tree.ofTokens tokens).mapError SyntaxError.diagnostic

end SourceFile

namespace Arena

/-- The program that the tree of an arena is. -/
def program (a : Arena) : Except ProgramError Program := do
  let a ← a.standardForm.mapError .standardize
  let control ← a.control.mapError .build
  return { arena := a, control }

end Arena

namespace Program

/-- The program in a file. -/
def ofFile (f : SourceFile) : Except ProgramError Program := do
  let t ← f.tree.mapError .diagnostic
  (Arena.ofTree t).program

end Program

end Rpal
