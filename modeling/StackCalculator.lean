import StackCalculator.CommandLine.FileTree
import StackCalculator.Main
import StackCalculator.Proofs.Diagnosis
import StackCalculator.Proofs.Postorder
import StackCalculator.Proofs.Evaluation
import StackCalculator.Proofs.Execution
import StackCalculator.Proofs.History
import StackCalculator.Proofs.LongestMatch
import StackCalculator.Proofs.Listing
import StackCalculator.Proofs.Observation
import StackCalculator.Proofs.Transcript
import StackCalculator.Proofs.FullDevice
import StackCalculator.Proofs.StackNeed
import StackCalculator.Proofs.FileRun
import StackCalculator.Proofs.Reevaluation
import StackCalculator.Proofs.Coverage
import StackCalculator.Proofs.Readback
import StackCalculator.Proofs.LineTable
import StackCalculator.Proofs.CallDepth
import StackCalculator.Proofs.Sameness
import StackCalculator.Proofs.Extension
import StackCalculator.Proofs.LegibleListing
import StackCalculator.Proofs.Interleaving
import StackCalculator.Proofs.Concatenation
import StackCalculator.Proofs.Building
import StackCalculator.Proofs.Room
import StackCalculator.Proofs.Agreement
import StackCalculator.Proofs.Subexpression
