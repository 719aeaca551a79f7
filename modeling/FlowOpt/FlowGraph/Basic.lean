import FlowOpt.Block
import FlowOpt.Graph.Loop

/-!
# Flow graphs

The blocks of a function, with an edge wherever a jump or branch leads. Nodes are numbered in block
order and the first is the entry. It has no predecessor: if some block targets the first block, a
block that only jumps there is put in front. The edges can be turned round; dominance and loops are
always those of the forward graph.
-/

namespace FlowOpt

structure FlowNode where
  block : Block
  /-- How often each variable that the block assigns is assigned by earlier blocks. -/
  versions : NameMap Nat
  synthetic : Bool

structure FlowGraph where
  graph : Digraph FlowNode
  reversed : Bool

namespace FlowGraph

def defaultEntryPrefix : String := "entry"

def numbered (stem : String) (n : Nat) : String := stem ++ "." ++ toString n

/-- The nodes of the blocks, where `counts` says in how many blocks a variable was assigned. -/
def annotate (counts : NameMap Nat) : List Block → List FlowNode
  | [] => []
  | b :: rest =>
    let versions := b.definedVars.map fun x => (x, (counts.get? x).getD 0)
    ⟨b, .ofList versions, false⟩ ::
      annotate (counts.insertAll (versions.map fun (x, n) => (x, n + 1))) rest

/-- A target of some block that is the name of none. -/
def unknownTarget? (blocks : List Block) : Option Error :=
  let names := blocks.map (·.name)
  blocks.findSome? fun b =>
    (b.targets.find? (!names.contains ·)).map (.unknownLabel b.name)

/-- The block in front of `first`, if some block targets that. -/
def entryNode? (stem : String) (blocks : List Block) (first : Block) : Option FlowNode :=
  if blocks.any (·.targets.contains first.name) then
    let name := numbered stem (freshIndex (numbered stem) (blocks.map (·.name)) 0)
    some ⟨.labeled name [.jump first.name], {}, true⟩
  else none

/-- The edges between blocks, each block's in the order of its targets. -/
def edgesOf (blocks : List Block) : List (Nat × Nat) :=
  let names := blocks.map (·.name)
  blocks.zipIdx.flatMap fun (b, i) => b.targets.map fun target => (i, names.idxOf target)

def ofBlocks (blocks : List Block) (stem : String) : Except Error FlowGraph := do
  let first :: _ := blocks | throw .noBlocks
  if let some name := firstRepeat? [] (blocks.map (·.name)) then throw (.duplicateBlock name)
  if let some error := unknownTarget? blocks then throw error
  let nodes := (entryNode? stem blocks first).toList ++ annotate {} blocks
  return ⟨← Digraph.ofEdges nodes (edgesOf (nodes.map (·.block))), false⟩

def ofInstructions (instrs : List Instruction) : Except Error FlowGraph := do
  ofBlocks (← Block.split instrs) defaultEntryPrefix

variable (g : FlowGraph)

def entry (_ : FlowGraph) : Nat := 0

def nodes : List FlowNode := g.graph.nodes.toList

def node? (v : Nat) : Option FlowNode := g.graph.node? v

def size : Nat := g.graph.size

def ids : List Nat := g.graph.ids

def names : List String := g.nodes.map (·.block.name)

/-- The name of a node, and nothing for a number that is no node. -/
def nameOf (v : Nat) : String := ((g.node? v).map (·.block.name)).getD ""

def id? (name : String) : Option Nat := g.names.idxOf? name

def require (name : String) : Except Error Nat :=
  match g.id? name with
  | some v => .ok v
  | none => .error (.blockNotFound name)

def hasSyntheticEntry : Bool := (g.node? g.entry).any (·.synthetic)

def blocks : List Block := g.nodes.map (·.block)

def switchDirections : FlowGraph := ⟨g.graph.reverse, !g.reversed⟩

/-- The edges as the code has them, whichever way they are turned. -/
def forward : Digraph FlowNode := if g.reversed then g.graph.reverse else g.graph

def dominance : Dominance := .ofGraph g.forward g.entry

def loops : LoopForest := .ofGraph g.forward g.dominance

end FlowGraph

end FlowOpt
