import BitFlow.Lower.Program
import BitFlow.Settings.Document
import BitFlow.Proofs.Bits.Arithmetic
import BitFlow.Proofs.Build.Order
import BitFlow.Proofs.Constant.Limit
import BitFlow.Proofs.Constant.PartialWrite
import BitFlow.Proofs.Course.Definitions
import BitFlow.Proofs.Course.Ending
import BitFlow.Proofs.Course.Frame
import BitFlow.Proofs.Enclave.Program
import BitFlow.Proofs.Graph.Ownership
import BitFlow.Proofs.Lower.Counts
import BitFlow.Proofs.Lower.Dominance
import BitFlow.Proofs.Lower.ForLoop
import BitFlow.Proofs.Lower.Kind
import BitFlow.Proofs.Lower.Naming
import BitFlow.Proofs.Lower.Phis
import BitFlow.Proofs.Lower.Preserve
import BitFlow.Proofs.Lower.Terminator
import BitFlow.Proofs.Lower.UniqueNames
import BitFlow.Proofs.Session.Answers
import BitFlow.Proofs.Typing.Program
