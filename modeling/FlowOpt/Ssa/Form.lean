import FlowOpt.Ssa.Renaming

/-!
# Static single assignment form

Phis are placed where versions meet, every assignment is renamed to a version of its own, and the
phis are written behind the labels of their blocks. Unreachable blocks stay as they are.
-/

namespace FlowOpt

structure SsaForm where
  blocks : List Block
  /-- The phis put into each block that got some. -/
  phis : NameMap (List Phi)
  renamed : Nat
  undefinedUses : Nat

namespace SsaForm

def defaultUndefined : String := "__undefined"

variable (f : SsaForm)

def phiCount : Nat := (f.phis.entries.flatMap (·.2)).length

def instrs : List Instruction := Block.flatten f.blocks

/-- A block with its new code, with a label if a phi names it. -/
def rebuilt (w : Ssa.Walk) (sources : List String) (b : Block) (v : Nat) : Block :=
  let b := { b with instrs := (w.renamed[v]?.join).getD b.instrs }
  let b := if sources.contains b.name then b.ensureLabel else b
  b.insertAt b.bodyStart (((w.phis[v]?.getD {}).entries).map (·.2.toInstruction))

def ofWalk (g : FlowGraph) (w : Ssa.Walk) : SsaForm :=
  let phis (v : Nat) := (w.phis[v]?.getD {}).entries.map (·.2)
  let sources := g.ids.flatMap fun v => (phis v).flatMap fun p => p.operands.map (·.predecessor)
  { blocks := g.blocks.zipIdx.map fun (b, v) => rebuilt w sources b v
    phis := .ofList ((g.ids.filter fun v => !(phis v).isEmpty).map fun v => (g.nameOf v, phis v))
    renamed := w.definitions
    undefinedUses := w.undefinedUses }

/-- The form of a forward graph. Parameters keep their names; what is read before it is assigned
is called `undefined`. -/
def ofGraph (g : FlowGraph) (params : List String) (undefined : String) :
    Except Error SsaForm :=
  if g.reversed then .error .reversedGraph
  else
    let d := g.dominance
    let start : Ssa.Walk :=
      ⟨{}, 0, 0, Ssa.placePhis g d, Array.replicate g.size none⟩
    let env := NameMap.ofList (params.map fun x => (x, x))
    .ok (ofWalk g (Ssa.rename g d undefined g.size g.entry env start))

end SsaForm

namespace Function

variable (f : Function)

def paramNames : List String := f.params.map (·.name)

/-- The flow graph of a body whose fallthroughs are written out. -/
def explicitGraph (stem : String) : Except Error FlowGraph := do
  let blocks ← Block.split f.instrs
  FlowGraph.ofBlocks (Block.addTerminators blocks) stem

def toSsa : Except Error SsaForm := do
  if f.instrs.isEmpty then throw (.emptyFunction f.name)
  let g ← f.explicitGraph FlowGraph.defaultEntryPrefix
  SsaForm.ofGraph g f.paramNames SsaForm.defaultUndefined

/-- Whether no variable is the destination of two instructions. -/
def isSsa : Bool := (firstRepeat? [] (f.instrs.filterMap (·.dest))).isNone

end Function

def Program.isSsa (p : Program) : Bool := p.functions.all (·.isSsa)

end FlowOpt
