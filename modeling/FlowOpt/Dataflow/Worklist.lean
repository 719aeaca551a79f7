import FlowOpt.Dataflow.Analysis

/-!
# The worklist

Blocks wait in a queue, at first all of them in block order. The first one is taken, its input is
merged from the outputs of its predecessors, and if its output becomes a different one its
successors join the queue, unless they wait there. The run ends with the queue. An analysis need
not be monotone, so it may not end; the steps allowed are then spent and there is no result.
-/

namespace FlowOpt

structure Results where
  /-- The facts at the start of every block. -/
  inputs : NameMap FactMap
  /-- The facts at the end of every block. -/
  outputs : NameMap FactMap
  iterations : Nat

namespace Worklist

structure State where
  queue : List Nat
  inputs : Array FactMap
  outputs : Array FactMap
  iterations : Nat

def start (size : Nat) : State :=
  ⟨List.range size, Array.replicate size {}, Array.replicate size {}, 0⟩

/-- The queue with those nodes behind it that do not wait in it. -/
def enqueue (queue nodes : List Nat) : List Nat :=
  nodes.foldl (fun queue v => if queue.contains v then queue else queue ++ [v]) queue

variable (a : Analysis) (graph : Digraph FlowNode)

/-- What flows into a block: the merge of its predecessors' outputs, or of one empty mapping. -/
def incoming (outputs : Array FactMap) (v : Nat) : FactMap :=
  match graph.preds v with
  | [] => a.merge [{}]
  | preds => a.merge (preds.map fun p => outputs[p]?.getD {})

/-- Takes block `v`, with `queue` behind it. -/
def step (st : State) (v : Nat) (queue : List Nat) : State :=
  let st := { st with queue, iterations := st.iterations + 1 }
  match graph.node? v with
  | none => st
  | some node =>
    let input := incoming a graph st.outputs v
    let output := a.transfer node input
    let st := { st with inputs := st.inputs.setIfInBounds v input }
    if st.outputs[v]? == some output then st
    else
      { st with
        outputs := st.outputs.setIfInBounds v output
        queue := enqueue queue (graph.succs v) }

def run : Nat → State → Option State
  | 0, st => if st.queue.isEmpty then some st else none
  | fuel + 1, st =>
    match st.queue with
    | [] => some st
    | v :: queue => run fuel (step a graph st v queue)

end Worklist

namespace FlowGraph

variable (g : FlowGraph)

/-- A mapping for every block name. -/
def keyed (maps : Array FactMap) : NameMap FactMap :=
  .ofList (g.ids.map fun v => (g.nameOf v, maps[v]?.getD {}))

/-- The result of an analysis, if it ends within `fuel` steps. -/
def solveWithin? (fuel : Nat) (a : Analysis) : Option Results :=
  let flow := match a.direction with
    | .forward => g
    | .backward => g.switchDirections
  (Worklist.run a flow.graph fuel (Worklist.start g.size)).map fun st =>
    let inputs := g.keyed st.inputs
    let outputs := g.keyed st.outputs
    match a.direction with
    | .forward => ⟨inputs, outputs, st.iterations⟩
    | .backward => ⟨outputs, inputs, st.iterations⟩

/-- At least the number of states of a run whose facts are versions, literals of the code, or one
of two others: a queue of nodes, and a fact or none for every node and variable. A run that takes
more steps comes back to a state, and never ends. -/
def stateBound : Nat :=
  let instrs := Block.flatten g.blocks
  let vars := distinct (instrs.flatMap fun i => i.dest.toList ++ i.args)
  Nat.pow (g.size + 1) (g.size + 1) *
    Nat.pow (g.size + instrs.length + 3) (g.size * vars.length)

def solve (a : Analysis) : Except Error Results :=
  match g.solveWithin? g.stateBound a with
  | some results => .ok results
  | none => .error .unsettled

end FlowGraph

end FlowOpt
