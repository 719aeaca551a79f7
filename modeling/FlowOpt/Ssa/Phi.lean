import FlowOpt.Program.Instruction

/-!
# Choices at joins

Where versions of a variable meet, a phi takes one value per predecessor. A predecessor gives at
most one value; a later one replaces it in its place.
-/

namespace FlowOpt

structure PhiOperand where
  value : String
  predecessor : String
  deriving DecidableEq, Repr

structure Phi where
  /-- The variable whose versions meet. -/
  source : String
  dest : Option String := none
  ty : Option Ty := none
  operands : List PhiOperand := []
  deriving DecidableEq, Repr

def PhiOperand.render (o : PhiOperand) : String := o.value ++ " <- ." ++ o.predecessor

namespace Phi

variable (p : Phi)

/-- The version it assigns, or the variable itself until it has one. -/
def target : String := p.dest.getD p.source

def operandFrom? (predecessor : String) : Option PhiOperand :=
  p.operands.find? (·.predecessor == predecessor)

def setOperand (predecessor value : String) : List PhiOperand → List PhiOperand
  | [] => [⟨value, predecessor⟩]
  | o :: rest =>
    if o.predecessor = predecessor then ⟨value, predecessor⟩ :: rest
    else o :: setOperand predecessor value rest

def addOperand (predecessor value : String) : Phi :=
  { p with operands := setOperand predecessor value p.operands }

def toInstruction : Instruction :=
  .phi p.target p.ty (p.operands.map (·.value)) (p.operands.map (·.predecessor))

def render : String :=
  p.target ++ " = phi(" ++ ", ".intercalate (p.operands.map (·.render)) ++ ")"

end Phi

end FlowOpt
