import FlowOpt.Dataflow.Analysis

/-!
# Loop-invariant instructions

An instruction of a loop is invariant if it only computes, nothing else in the loop assigns its
destination, no value of that is live where the loop is entered, and every argument is unassigned
in the loop or assigned once, by an invariant instruction. Marking scans the loop until a scan adds
nothing, so what is marked comes after the instructions it depends on.
-/

namespace FlowOpt

/-- An instruction where it stands: its node and its position in the block. -/
structure Site where
  node : Nat
  index : Nat
  instr : Instruction
  deriving DecidableEq

namespace Site

def isAt (s t : Site) : Bool := s.node == t.node && s.index == t.index

end Site

/-- An operation with a destination and no side effects. -/
def Instruction.isMovable (i : Instruction) : Bool :=
  !i.isLabel && i.op.isSome && i.dest.isSome && !i.hasSideEffects

namespace NaturalLoop

/-- The instructions of a loop, by node and position. -/
def sites (g : FlowGraph) (l : NaturalLoop) : List Site :=
  l.body.members.flatMap fun v =>
    (((g.node? v).map (·.block.instrs)).getD []).zipIdx.map fun (i, index) => ⟨v, index, i⟩

/-- Those that assign a variable. -/
def assignments (sites : List Site) (x : String) : List Site :=
  sites.filter fun s => s.instr.dest == some x

/-- Whether the destination is assigned once in the loop and not live at its entry. -/
def ownsDest (sites : List Site) (live : FactMap) (s : Site) : Bool :=
  match s.instr.dest with
  | none => false
  | some x => !NameMap.contains live x && (assignments sites x).length == 1

/-- Whether an argument has one value throughout the loop, given the instructions marked. -/
def isInvariantArg (sites marked : List Site) (x : String) : Bool :=
  match assignments sites x with
  | [] => true
  | [s] => marked.any (·.isAt s)
  | _ => false

def canMark (sites : List Site) (live : FactMap) (marked : List Site) (s : Site) : Bool :=
  !marked.any (·.isAt s) && s.instr.isMovable && ownsDest sites live s &&
    s.instr.args.all (isInvariantArg sites marked)

def markScan (sites : List Site) (live : FactMap) (marked : List Site) : List Site :=
  sites.foldl (fun marked s =>
    if canMark sites live marked s then marked ++ [s] else marked) marked

def markLoop (sites : List Site) (live : FactMap) : Nat → List Site → List Site
  | 0, marked => marked
  | fuel + 1, marked =>
    let next := markScan sites live marked
    if next.length = marked.length then next else markLoop sites live fuel next

/-- The invariant instructions in the order they are marked. Every scan but the last marks one. -/
def invariants (g : FlowGraph) (l : NaturalLoop) (live : FactMap) : List Site :=
  let sites := l.sites g
  markLoop sites live (sites.length + 1) []

end NaturalLoop

end FlowOpt
