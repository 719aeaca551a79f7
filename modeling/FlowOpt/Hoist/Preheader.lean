import FlowOpt.Hoist.Plan

/-!
# Moving invariant instructions to preheaders

The planned instructions are taken out of their blocks and put into a new block in front of each
header, which the edges from outside then lead to. Phis of the header that read from an entering
block read from the new block instead.
-/

namespace FlowOpt

structure Hoisted where
  block : String
  preheader : String
  instr : Instruction
  deriving DecidableEq

structure HoistOutcome where
  blocks : List Block
  /-- Each new block with the header that it precedes. -/
  preheaders : List (String × String) := []
  hoisted : List Hoisted := []
  /-- A block and a new block, for every label of the first that now names the second. -/
  retargeted : List (String × String) := []
  skipped : List String := []

namespace HoistOutcome

def changed (o : HoistOutcome) : Bool := !o.hoisted.isEmpty

end HoistOutcome

/-- The names that the moving puts in: the block before a first block that is a target, and the
blocks before headers. -/
structure HoistNames where
  entry : String := "entry"
  preheader : String := "preheader"
  deriving DecidableEq, Repr

namespace HoistPlan

variable (p : HoistPlan) (preheader : String)

/-- An instruction of the block `block`, led to the preheader. -/
def redirect (block : String) (i : Instruction) : Instruction :=
  if p.entering.contains block && i.isBranch then
    { i with labels := i.labels.map fun l => if l = p.header then preheader else l }
  else if block = p.header && i.isPhi then
    { i with labels := i.labels.map fun l => if p.entering.contains l then preheader else l }
  else i

def redirectBlock (b : Block) : Block :=
  { b with instrs := b.instrs.map (p.redirect preheader b.name) }

/-- One entry for every label of the block that `redirect` leads to the preheader. -/
def redirections (b : Block) : List (String × String) :=
  if p.entering.contains b.name then
    ((b.instrs.filter (·.isBranch)).flatMap fun i => i.labels.filter (· == p.header)).map
      fun _ => (b.name, preheader)
  else []

/-- The preheader put before the block of the header. -/
def insertBefore (new : Block) : List Block → List Block
  | [] => []
  | b :: rest => if b.name = p.header then new :: b :: rest else b :: insertBefore new rest

/-- Carries the plan out, with preheaders numbered from `next` on. -/
def apply (g : FlowGraph) (stem : String) (o : HoistOutcome) (next : Nat) : HoistOutcome × Nat :=
  let n := freshIndex (FlowGraph.numbered stem) (o.blocks.map (·.name)) next
  let preheader := FlowGraph.numbered stem n
  let body := p.sites.map (·.instr) ++ [.jump p.header]
  ({ o with
    blocks := p.insertBefore (.labeled preheader body)
      (o.blocks.map (p.redirectBlock preheader))
    preheaders := o.preheaders ++ [(preheader, p.header)]
    hoisted := o.hoisted ++ p.sites.map fun s => ⟨g.nameOf s.node, preheader, s.instr⟩
    retargeted := o.retargeted ++ o.blocks.flatMap (p.redirections preheader) }, n + 1)

end HoistPlan

namespace FlowGraph

variable (g : FlowGraph)

/-- The blocks of the code without the planned instructions; a block put in front is left out. -/
def remaining (plans : List HoistPlan) : List Block :=
  let moved := plans.flatMap (·.sites)
  (g.nodes.zipIdx.filter fun (n, _) => !n.synthetic).map fun (n, v) =>
    { n.block with
      instrs := (n.block.instrs.zipIdx.filter fun (_, index) =>
        !moved.any fun s => s.node == v && s.index == index).map (·.1) }

def applyPlans (stem : String) (plans : List HoistPlan) (skipped : List String) : HoistOutcome :=
  let start : HoistOutcome := { blocks := g.remaining plans, skipped }
  (plans.foldl (fun (o, next) p => p.apply g stem o next) (start, 0)).1

end FlowGraph

/-- The invariant instructions of all loops moved out of them. -/
def Block.hoist (names : HoistNames) (blocks : List Block) : Except Error HoistOutcome := do
  let g ← FlowGraph.ofBlocks (Block.addTerminators blocks) names.entry
  let live ← g.solve (edgeLiveness g)
  let planned := g.planLoops live
  return g.applyPlans names.preheader planned.plans planned.skipped

end FlowOpt
