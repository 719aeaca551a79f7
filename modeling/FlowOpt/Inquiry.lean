import FlowOpt.Dataflow.Worklist
import FlowOpt.FlowGraph.ByName

/-!
# A graph under inquiry

Dominance and loops are worked out when they are first asked for, whichever way the edges are turned
then, and kept for later. An analysis against the flow turns the edges for its run and turns them
back behind it.
-/

namespace FlowOpt

structure Inquiry where
  graph : FlowGraph
  /-- What has been worked out. -/
  dominance? : Option Dominance := none
  loops? : Option LoopForest := none

/-- What is asked of a graph, and the turning of its edges. -/
inductive Question
  | turn
  | dominance
  | loops
  | paths (candidate target : String)
  | solve (fuel : Nat) (analysis : Analysis)

inductive Reply
  | turned (reversed : Bool)
  | dominance (d : Dominance)
  | loops (f : LoopForest)
  | paths (dominates : Except Error Bool)
  | solved (results : Results)

namespace Inquiry

/-- Nothing is worked out at first. -/
def ofGraph (g : FlowGraph) : Inquiry := { graph := g }

variable (q : Inquiry)

def switchDirections : Inquiry := { q with graph := q.graph.switchDirections }

def dominance : Dominance × Inquiry :=
  match q.dominance? with
  | some d => (d, q)
  | none =>
    let d := q.graph.dominance
    (d, { q with dominance? := some d })

def loops : LoopForest × Inquiry :=
  match q.loops? with
  | some f => (f, q)
  | none =>
    let (d, q) := q.dominance
    let f := LoopForest.ofGraph q.graph.forward d
    (f, { q with loops? := some f })

/-- The edges turned the way facts flow in that direction. -/
def turnedFor : Direction → Inquiry
  | .forward => q
  | .backward => q.switchDirections

/-- The run follows the edges as they are turned, so behind it starts and ends change places if they
were turned against the flow. -/
def solveWithin? (fuel : Nat) (a : Analysis) : Option (Results × Inquiry) :=
  let flow := q.turnedFor a.direction
  (flow.graph.solveWithin? fuel { a with direction := .forward }).map fun r =>
    let results := match a.direction with
      | .forward => r
      | .backward => ⟨r.outputs, r.inputs, r.iterations⟩
    (results, flow.turnedFor a.direction)

def solve (a : Analysis) : Except Error (Results × Inquiry) :=
  match q.solveWithin? q.graph.stateBound a with
  | some r => .ok r
  | none => .error .unsettled

/-- There is no reply if an analysis does not end. -/
def ask (question : Question) : Option (Reply × Inquiry) :=
  match question with
  | .turn =>
    let q := q.switchDirections
    some (.turned q.graph.reversed, q)
  | .dominance =>
    let (d, q) := q.dominance
    some (.dominance d, q)
  | .loops =>
    let (f, q) := q.loops
    some (.loops f, q)
  | .paths candidate target => some (.paths (q.graph.dominatesByPaths candidate target), q)
  | .solve fuel a => (q.solveWithin? fuel a).map fun (results, q) => (.solved results, q)

/-- One question after the other. -/
def askAll : List Question → Inquiry → Option (List Reply × Inquiry)
  | [], q => some ([], q)
  | question :: questions, q => do
    let (reply, q) ← q.ask question
    let (replies, q) ← askAll questions q
    return (reply :: replies, q)

end Inquiry

end FlowOpt
