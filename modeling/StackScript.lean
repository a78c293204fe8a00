import StackScript.Main
import StackScript.Proofs.Bindings
import StackScript.Proofs.Boundaries
import StackScript.Proofs.Comparison
import StackScript.Proofs.Constants
import StackScript.Proofs.Containment
import StackScript.Proofs.Decimal
import StackScript.Proofs.Depth
import StackScript.Proofs.Emission
import StackScript.Proofs.FaultLine
import StackScript.Proofs.FirstFault
import StackScript.Proofs.Halting
import StackScript.Proofs.Hashing
import StackScript.Proofs.Interactive
import StackScript.Proofs.Interning
import StackScript.Proofs.Listing
import StackScript.Proofs.Liveness
import StackScript.Proofs.Observation
import StackScript.Proofs.Reformatting
import StackScript.Proofs.Refusal
import StackScript.Proofs.Scanning.Printing
import StackScript.Proofs.Scanning.Scanner
import StackScript.Proofs.SourceOrder
import StackScript.Proofs.StackUse
import StackScript.Proofs.Wrapping
