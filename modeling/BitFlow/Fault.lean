import BitFlow.Graph.Id
import BitFlow.Source.Program

/-!
# Faults

Why an operation on the graph, or the lowering of a program, stops. A fault is a cause; its wording
is `Fault.message`. Where a fault names a place of the source it carries the description of that
place as its `site`.
-/

namespace BitFlow

/-! ## 1. What the language has and the lowering does not -/

/-- A use of the language that is not lowered. -/
inductive Unsupported where
  | wideLiteral (limit : Nat)
  | arrayAsValue (name : String)
  | arrayIndexed (name : String)
  | arrayAssigned (name : String)
  | arrayRead (name : String)
  | arrayPart
  | severalIndices
  | variableBound
  | variableIndex
  | breakOutside
  | continueOutside
  deriving DecidableEq, Repr

/-- The wording of an unsupported use. -/
def Unsupported.text : Unsupported → String
  | .wideLiteral limit => "literal wider than " ++ toString limit ++ " bits"
  | .arrayAsValue name => "array variable " ++ name ++ " used as a value"
  | .arrayIndexed name => "indexing array variable " ++ name
  | .arrayAssigned name => "assignment to array variable " ++ name
  | .arrayRead name => "read into array variable " ++ name
  | .arrayPart => "partial assignment to an array variable"
  | .severalIndices => "assignment through more than one index"
  | .variableBound => "non-constant range bound"
  | .variableIndex => "non-constant index in assignment"
  | .breakOutside => "break outside of a loop"
  | .continueOutside => "continue outside of a loop"

/-! ## 2. Typing -/

/-- What a place asks of the operand that stands there. -/
inductive Expected where
  | type (ty : Ty)
  | width (bits : Nat)
  | nonEmptyType
  | somePart
  deriving DecidableEq, Repr

/-- The wording of what was asked for. -/
def Expected.text : Expected → String
  | .type ty => ty.text
  | .width bits => toString bits ++ "-bit value"
  | .nonEmptyType => "non-empty type"
  | .somePart => "at least one part"

/-- The two ways in which a port is used. -/
inductive Access where
  | read
  | write
  deriving DecidableEq, Repr

/-- The written form of an access. -/
def Access.text : Access → String
  | .read => "read"
  | .write => "write"

/-! ## 3. Broken rules of the graph -/

/-- A rule of the graph that an operation would break, or that a check found broken. -/
inductive Violation where
  | unknownValue (v : ValueId)
  | lateEdge (source target : BlockId)
  | pastEnd (position : Nat) (block : BlockId) (length : Nat)
  | notPhi (v : ValueId)
  | notUnary (op : Opcode) (site : String)
  | notBinary (op : Opcode) (site : String)
  | notComparison (op : Opcode) (site : String)
  | cursorElsewhere (name : String) (block cursor : BlockId)
  | fillingDetached (phi : ValueId)
  | sealedTwice (block : BlockId)
  | loopUnderflow (label : String)
  | loopOpen (label : String)
  | phisIncomplete (blocks : List BlockId)
  | notSealed (block : BlockId)
  | edgeUnlisted (source target : BlockId)
  | predecessorsDisagree (block : BlockId) (listed : List BlockId)
  | ownedElsewhere (v : ValueId) (block : BlockId)
  | phiListed (v : ValueId) (block : BlockId)
  | phiSources (phi : ValueId) (block : BlockId) (sources expected : List BlockId)
  | detachedOperand (user v : ValueId)
  | detachedCondition (block : BlockId) (v : ValueId)
  deriving DecidableEq, Repr

/-- The wording of a broken rule. -/
def Violation.text : Violation → String
  | .unknownValue v => "unknown value " ++ v.text
  | .lateEdge a b =>
      "edge " ++ a.text ++ " -> " ++ b.text ++ " added after " ++ b.text ++ " was sealed"
  | .pastEnd p b n =>
      "insert position " ++ toString p ++ " past end of " ++ b.text ++ " (" ++ toString n ++
        " instructions)"
  | .notPhi v => v.text ++ " is not a phi"
  | .notUnary op site => op.mnemonic ++ " is not a unary operator (at " ++ site ++ ")"
  | .notBinary op site => op.mnemonic ++ " is not a binary operator (at " ++ site ++ ")"
  | .notComparison op site => op.mnemonic ++ " is not a comparison (at " ++ site ++ ")"
  | .cursorElsewhere name b c =>
      "partial write to " ++ name ++ " in " ++ b.text ++ " with the cursor in " ++ c.text
  | .fillingDetached v => "filling detached phi " ++ v.text
  | .sealedTwice b => b.text ++ " sealed twice"
  | .loopUnderflow label => "loop stack underflow in " ++ label
  | .loopOpen label => "loop " ++ label ++ " still open at finalize"
  | .phisIncomplete bs => "incomplete phis remain in " ++ BlockId.listText bs
  | .notSealed b => "reachable block " ++ b.text ++ " is not sealed"
  | .edgeUnlisted a b =>
      a.text ++ " branches to " ++ b.text ++ " but is not one of its predecessors"
  | .predecessorsDisagree b listed =>
      "predecessors of " ++ b.text ++ " (" ++ BlockId.listText listed ++
        ") disagree with its incoming edges"
  | .ownedElsewhere v b => v.text ++ " listed in " ++ b.text ++ " but owned elsewhere"
  | .phiListed v b => v.text ++ " in the phi list of " ++ b.text ++ " is not a phi"
  | .phiSources v b sources expected =>
      "phi " ++ v.text ++ " in " ++ b.text ++ " has sources " ++ BlockId.listText sources ++
        ", expected " ++ BlockId.listText expected
  | .detachedOperand u v => "operand of " ++ u.text ++ " references detached value " ++ v.text
  | .detachedCondition b v =>
      "branch condition in " ++ b.text ++ " references detached value " ++ v.text

/-! ## 4. All faults -/

/-- Why an operation stops. -/
inductive Fault where
  | unsupported (what : Unsupported) (site : String)
  | typeMismatch (expected : Expected) (found : Option Ty) (site : String)
  | outOfRange (msb lsb width : Nat) (site : String)
  | unknownVariable (x : VarId)
  | unknownPort (p : PortId)
  | unknownBlock (b : BlockId)
  | wrongDirection (p : PortId) (access : Access) (site : String)
  | violated (rule : Violation)
  /-- A search through the graph that never comes to an end. -/
  | endless
  deriving DecidableEq, Repr

instance : Inhabited Fault := ⟨.endless⟩

/-- The wording of a fault. -/
def Fault.message : Fault → String
  | .unsupported what site => "Not implemented: " ++ what.text ++ " (at " ++ site ++ ")"
  | .typeMismatch expected found site =>
      "Type mismatch: expected " ++ expected.text ++ ", found " ++
        (found.map Ty.text).getD "none" ++ " (at " ++ site ++ ")"
  | .outOfRange msb lsb width site =>
      "Index [" ++ toString msb ++ ":" ++ toString lsb ++ "] out of range for " ++
        toString width ++ "-bit value (at " ++ site ++ ")"
  | .unknownVariable x => "Unknown variable " ++ x.text
  | .unknownPort p => "Unknown port " ++ p.text
  | .unknownBlock b => "Unknown block " ++ b.text
  | .wrongDirection p access site =>
      "Port " ++ p.text ++ " is not usable as " ++ access.text ++ " (at " ++ site ++ ")"
  | .violated rule => "SSA invariant violated: " ++ rule.text
  | .endless => "SSA invariant violated: endless search"

end BitFlow
