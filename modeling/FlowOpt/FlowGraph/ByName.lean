import FlowOpt.Dot
import FlowOpt.FlowGraph.Basic

/-!
# Questions about blocks by name

What dominance and adjacency say about nodes, told by the names of their blocks, and the drawing of
the graph.
-/

namespace FlowOpt.FlowGraph

variable (g : FlowGraph)

def namesOf (nodes : List Nat) : List String := sortedNames (nodes.map g.nameOf)

/-- A set of nodes for every block. -/
def byName (nodes : Nat → List Nat) : NameMap (List String) :=
  .ofList (g.ids.map fun v => (g.nameOf v, g.namesOf (nodes v)))

def dominators : NameMap (List String) :=
  let d := g.dominance
  g.byName fun v => ((d.dominators? v).map (·.members)).getD []

def dominatees : NameMap (List String) :=
  let d := g.dominance
  g.byName fun v => (d.dominatees v).members

/-- For every block the blocks whose immediate dominator it is. -/
def immediatelyDominated : NameMap (List String) :=
  let d := g.dominance
  g.byName d.children

def frontiers : NameMap (List String) :=
  let d := g.dominance
  g.byName fun v => ((d.frontier? v).map (·.members)).getD []

def dominates (a b : String) : Except Error Bool := do
  let a ← g.require a
  let b ← g.require b
  return g.dominance.dominates a b

def dominatesByPaths (candidate target : String) : Except Error Bool := do
  let candidate ← g.require candidate
  let target ← g.require target
  return g.forward.dominatesByPaths g.entry candidate target

def succNames (name : String) : Except Error (List String) := do
  return g.namesOf (g.graph.succs (← g.require name))

def predNames (name : String) : Except Error (List String) := do
  return g.namesOf (g.graph.preds (← g.require name))

/-- A box with its operations for every block, then the edges. -/
def toDot (title : Option String) : String :=
  let boxes := g.nodes.map fun n =>
    Dot.Line.node n.block.name
      (n.block.name ++ "\n" ++ String.join (n.block.operations.map fun i => i.render ++ "\n"))
  let edges := g.ids.flatMap fun v =>
    (g.graph.succs v).map fun w => Dot.Line.edge (g.nameOf v) (g.nameOf w)
  Dot.document (title.getD "cfg") (boxes ++ edges)

end FlowOpt.FlowGraph
