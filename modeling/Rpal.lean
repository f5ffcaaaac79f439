import Rpal.Token.Set
import Rpal.Value.Equality
import Rpal.Arena.Read
import Rpal.CommandLine
import Rpal.Main
import Rpal.Proofs.Grammar.Expected
import Rpal.Proofs.Control.Acceptance
import Rpal.Proofs.Machine.Soundness
import Rpal.Proofs.Machine.Scope
import Rpal.Proofs.Evaluator.Refinement
import Rpal.Proofs.Evaluator.Agreement
import Rpal.Proofs.Evaluator.Preservation
import Rpal.Proofs.Machine.Callers
import Rpal.Proofs.Control.Exact
import Rpal.Proofs.Token.Munch
import Rpal.Proofs.Layout.Standardize
import Rpal.Proofs.Layout.Flatten
import Rpal.Proofs.Layout.Machine
import Rpal.Proofs.Layout.Program
import Rpal.Proofs.Source.Report
import Rpal.Proofs.Machine.Renaming
import Rpal.Proofs.Arena.Failure
import Rpal.Proofs.Source.TokenLines
import Rpal.Proofs.Value.ReadBack
import Rpal.Proofs.Machine.Simultaneous
import Rpal.Proofs.Machine.Arithmetic
import Rpal.Proofs.Machine.Limit
import Rpal.Proofs.Arena.Read
import Rpal.Proofs.Tree.Listing
import Rpal.Proofs.Value.Printed
import Rpal.Proofs.Source.Addresses
import Rpal.Proofs.Machine.Lines
