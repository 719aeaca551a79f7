import FlowOpt.Error

/-!
# Directed graphs

Nodes are numbered in the order they were added. Both directions of an edge are listed, each node's
neighbours in the order the edges were added and none of them twice.
-/

namespace FlowOpt

structure Digraph (α : Type) where
  nodes : Array α
  outgoing : Array (List Nat)
  incoming : Array (List Nat)
  edgeCount : Nat

namespace Digraph

variable {α : Type}

def empty : Digraph α := ⟨#[], #[], #[], 0⟩

variable (g : Digraph α)

def size : Nat := g.nodes.size

def ids : List Nat := List.range g.size

def contains (v : Nat) : Bool := v < g.size

def node? (v : Nat) : Option α := g.nodes[v]?

def succs (v : Nat) : List Nat := g.outgoing[v]?.getD []

def preds (v : Nat) : List Nat := g.incoming[v]?.getD []

def hasEdge (source target : Nat) : Bool := (g.succs source).contains target

def addNode (a : α) : Digraph α :=
  { g with
    nodes := g.nodes.push a
    outgoing := g.outgoing.push []
    incoming := g.incoming.push [] }

/-- The graph with the edge, and whether it is new. -/
def addEdge (source target : Nat) : Except Error (Digraph α × Bool) :=
  if !g.contains source then .error (.missingNode .source source g.size)
  else if !g.contains target then .error (.missingNode .target target g.size)
  else if g.hasEdge source target then .ok (g, false)
  else
    .ok ({ g with
      outgoing := g.outgoing.modify source (· ++ [target])
      incoming := g.incoming.modify target (· ++ [source])
      edgeCount := g.edgeCount + 1 }, true)

/-- The graph without the edge, and whether it had it. -/
def removeEdge (source target : Nat) : Digraph α × Bool :=
  if g.hasEdge source target then
    ({ g with
      outgoing := g.outgoing.modify source (·.erase target)
      incoming := g.incoming.modify target (·.filter (· != source))
      edgeCount := g.edgeCount - 1 }, true)
  else (g, false)

/-- All edges turned round. -/
def reverse : Digraph α := { g with outgoing := g.incoming, incoming := g.outgoing }

/-- Another value at a node, with the old one; nothing changes where no node is. -/
def setNode (v : Nat) (a : α) : Digraph α × Option α :=
  ({ g with nodes := g.nodes.setIfInBounds v a }, g.node? v)

/-- The nodes, and the edges one after the other. -/
def ofEdges (nodes : List α) (edges : List (Nat × Nat)) : Except Error (Digraph α) :=
  edges.foldlM (fun g (source, target) => (·.1) <$> g.addEdge source target)
    (nodes.foldl addNode empty)

end Digraph

end FlowOpt
