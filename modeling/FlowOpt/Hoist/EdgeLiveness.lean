import FlowOpt.Dataflow.Worklist

/-!
# Liveness with phis

An argument of a phi is read on the edge from the predecessor it is labelled with, so it is live at
the end of that block and not at the head of its own.
-/

namespace FlowOpt

namespace FlowGraph

/-- What the phis of the graph read at the end of a block. -/
def phiReads (g : FlowGraph) (block : String) : List String :=
  let phis := g.blocks.flatMap fun b => b.operations.filter (·.isPhi)
  (phis.flatMap fun i => i.args.zip i.labels).filterMap fun (x, label) =>
    if label = block then some x else none

end FlowGraph

/-- What is live before an instruction, given what is live behind it. -/
def Instruction.liveBefore (i : Instruction) (live : FactMap) : FactMap :=
  let live := live.filter fun x _ => i.dest != some x
  if i.isPhi then live else live.insertAll (i.args.map (·, .live))

def edgeLiveness (g : FlowGraph) : Analysis where
  direction := .backward
  merge := .union
  transfer n input :=
    n.block.instrs.foldr Instruction.liveBefore
      (input.insertAll ((g.phiReads n.block.name).map (·, .live)))

end FlowOpt
