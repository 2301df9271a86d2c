import SecdLisp.Main
import SecdLisp.Proofs.Canonical
import SecdLisp.Proofs.Capacity.Overflow
import SecdLisp.Proofs.Continuation.Prepending
import SecdLisp.Proofs.Discipline.Lists
import SecdLisp.Proofs.Faults
import SecdLisp.Proofs.Filling
import SecdLisp.Proofs.Globals.Reads
import SecdLisp.Proofs.Globals.Table
import SecdLisp.Proofs.ImageFormat
import SecdLisp.Proofs.Interning
import SecdLisp.Proofs.Linking.Slots
import SecdLisp.Proofs.Parallel.Showing
import SecdLisp.Proofs.Parameters
import SecdLisp.Proofs.Reference.Correctness
import SecdLisp.Proofs.Refusal
import SecdLisp.Proofs.Shell.Agreement
import SecdLisp.Proofs.Shell.Waiting
import SecdLisp.Proofs.Text.Elision
import SecdLisp.Proofs.Text.Lexer
import SecdLisp.Proofs.Text.Marks
import SecdLisp.Proofs.Text.RoundTrip
import SecdLisp.Proofs.Transparency.Expansion
import SecdLisp.Proofs.Upkeep.Leftovers
import SecdLisp.Proofs.Upkeep.Spine
import SecdLisp.Proofs.Upkeep.Termination
import SecdLisp.Shell.Desk
