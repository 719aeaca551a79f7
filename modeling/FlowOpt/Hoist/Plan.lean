import FlowOpt.Hoist.EdgeLiveness
import FlowOpt.Hoist.Invariant

/-!
# What to hoist out of which loop

Loops are visited outermost first, and an instruction goes to the first loop it is invariant in. A
loop whose header has phis is left alone if it is entered from several blocks, since the one block
put in front of the header cannot stand for all of them; nothing goes to it.
-/

namespace FlowOpt

structure HoistPlan where
  header : String
  /-- The blocks outside that lead to the header. -/
  entering : List String
  sites : List Site

structure HoistPlans where
  plans : List HoistPlan := []
  /-- The headers of the loops left alone. -/
  skipped : List String := []
  taken : List Site := []

namespace FlowGraph

variable (g : FlowGraph)

def hasPhi (v : Nat) : Bool := (g.node? v).any fun n => n.block.operations.any (·.isPhi)

/-- The loop `l`, given the plans of the loops around it. -/
def planLoop (live : Results) (acc : HoistPlans) (l : NaturalLoop) : HoistPlans :=
  let header := g.nameOf l.header
  let liveIn : FactMap := (live.inputs.get? header).getD {}
  let sites := (l.invariants g liveIn).filter fun s => !acc.taken.any (·.isAt s)
  if sites.isEmpty then acc
  else
    let entering := l.entering g.graph
    if g.hasPhi l.header && 1 < entering.length then
      { acc with skipped := acc.skipped ++ [header] }
    else
      let blocks := (entering.filter fun v => !(g.node? v).any (·.synthetic)).map g.nameOf
      { acc with
        plans := acc.plans ++ [⟨header, blocks, sites⟩]
        taken := acc.taken ++ sites }

def planLoops (live : Results) : HoistPlans :=
  g.loops.outermostFirst.foldl (g.planLoop live) {}

end FlowGraph

end FlowOpt
