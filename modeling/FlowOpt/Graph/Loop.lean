import FlowOpt.Graph.Dominance

/-!
# Natural loops

An edge to a node that dominates its source is a back edge. The loop of its target, the header,
holds the header and every node from which some source of such an edge, a latch, can be reached
without passing the header. Only latches that are reachable from the entry count.
-/

namespace FlowOpt

structure NaturalLoop where
  header : Nat
  body : BitSet
  latches : List Nat
  /-- The number of other loops that hold the header. -/
  depth : Nat

structure LoopForest where
  /-- The loops, ascending by header. -/
  loops : List NaturalLoop

namespace NaturalLoop

variable {α : Type} (l : NaturalLoop)

def contains (v : Nat) : Bool := l.body.contains v

def size : Nat := l.body.size

/-- The predecessors of the header that lie outside. -/
def entering (g : Digraph α) : List Nat := (g.preds l.header).filter (!l.contains ·)

/-- The nodes outside to which some node of the loop leads, ascending. -/
def exits (g : Digraph α) : List Nat :=
  (BitSet.ofList l.body.capacity
    (l.body.members.flatMap fun v => (g.succs v).filter (!l.contains ·))).members

end NaturalLoop

namespace Digraph

variable {α : Type} (g : Digraph α)

/-- Adds what leads to the nodes of the list, up to the nodes of the body. -/
def absorbLoop : Nat → List Nat → BitSet → BitSet
  | 0, _, body => body
  | _ + 1, [], body => body
  | fuel + 1, v :: work, body =>
    let (body, isNew) := body.insert v
    if isNew then absorbLoop fuel (((g.preds v).filter (!body.contains ·)).reverse ++ work) body
    else absorbLoop fuel work body

/-- A body with everything that leads to a latch around the nodes that it has. -/
def absorb (body : BitSet) (latch : Nat) : BitSet :=
  g.absorbLoop (2 + (g.ids.flatMap g.preds).length) [latch] body

end Digraph

namespace LoopForest

variable {α : Type}

/-- The sources of back edges to `header`, ascending. -/
def latches (g : Digraph α) (d : Dominance) (header : Nat) : List Nat :=
  g.ids.filter fun v => d.isReachable v && g.hasEdge v header && d.dominates header v

def bodyOf (g : Digraph α) (d : Dominance) (header : Nat) : BitSet :=
  (latches g d header).foldl g.absorb (BitSet.ofList g.size [header])

/-- The loops of a graph, told by its dominance. -/
def ofGraph (g : Digraph α) (d : Dominance) : LoopForest :=
  let headers := g.ids.filter fun v => !(latches g d v).isEmpty
  let bodies := headers.map fun h => (h, bodyOf g d h)
  ⟨bodies.map fun (h, body) =>
    { header := h
      body
      latches := latches g d h
      depth := bodies.countP fun (outer, around) => outer != h && around.contains h }⟩

variable (f : LoopForest)

def size : Nat := f.loops.length

def isEmpty : Bool := f.loops.isEmpty

def loopOf? (header : Nat) : Option NaturalLoop := f.loops.find? (·.header == header)

/-- The deepest loop around a node. -/
def innermost? (v : Nat) : Option NaturalLoop := lastMaxOn (·.depth) (f.loops.filter (·.contains v))

/-- The number of loops around a node. -/
def depthOf (v : Nat) : Nat := f.loops.countP (·.contains v)

/-- The loops by depth, those of one depth by header. -/
def outermostFirst : List NaturalLoop :=
  f.loops.mergeSort fun a b =>
    a.depth < b.depth || (a.depth == b.depth && a.header ≤ b.header)

end LoopForest

end FlowOpt
