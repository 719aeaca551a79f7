import FlowOpt.Dataflow.Kind
import FlowOpt.FlowGraph.ByName
import FlowOpt.Pipeline
import FlowOpt.Proofs.Dataflow.ConstantFacts
import FlowOpt.Proofs.Dataflow.Constants
import FlowOpt.Proofs.Dataflow.PhiFree
import FlowOpt.Proofs.Dataflow.Versions
import FlowOpt.Proofs.FlowGraph.Exact
import FlowOpt.Proofs.Graph.Loop
import FlowOpt.Proofs.Hoist.Edges
import FlowOpt.Proofs.Hoist.Faults
import FlowOpt.Proofs.Hoist.Strict
import FlowOpt.Proofs.Inquiry
import FlowOpt.Proofs.Pass.Chain
import FlowOpt.Proofs.Pass.Idempotence
import FlowOpt.Proofs.Pass.Accounting
import FlowOpt.Proofs.Program.Record
import FlowOpt.Proofs.Ssa.Destinations
import FlowOpt.Proofs.Graph.LoopNesting
import FlowOpt.Proofs.Graph.LoopSearch
import FlowOpt.Proofs.FlowGraph.PathCheck
import FlowOpt.Proofs.Graph.Merging
import FlowOpt.Proofs.Ssa.Undefined
import FlowOpt.Proofs.Pass.Conservation
import FlowOpt.Proofs.Pieces
import FlowOpt.Proofs.FlatCode
import FlowOpt.Proofs.Pass.NormalForm
import FlowOpt.Proofs.Hoist.Inheritance
import FlowOpt.Proofs.BitSet.Refinement
import FlowOpt.Proofs.Graph.Edits
import FlowOpt.Proofs.Graph.Postorder
import FlowOpt.Proofs.Graph.Preorder
import FlowOpt.Proofs.Dot
import FlowOpt.Proofs.FlowGraph.Cycles
