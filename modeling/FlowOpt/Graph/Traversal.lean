import FlowOpt.BitSet
import FlowOpt.Graph.Digraph

/-!
# Depth-first orders

A search keeps what is still to be done in a list and the nodes it has met in a set. Every node is
met at most once, so the number of nodes, or of nodes and edges, bounds the steps. From a node that
is not there nothing is reached.
-/

namespace FlowOpt.Digraph

variable {α : Type} (g : Digraph α)

/-- The nodes of a list that are new to the set, put in front of `work` one after the other. -/
def meet (work : List Nat) (met : BitSet) (nodes : List Nat) : List Nat × BitSet :=
  nodes.foldl (fun (work, met) v =>
    let (met, isNew) := met.insert v
    (if isNew then v :: work else work, met)) (work, met)

/-- Takes the first node of the list and meets its successors, the last one first. -/
def dfsLoop : Nat → List Nat → BitSet → List Nat
  | 0, _, _ => []
  | _ + 1, [], _ => []
  | fuel + 1, v :: work, met =>
    let (work, met) := meet work met (g.succs v).reverse
    v :: dfsLoop fuel work met

def dfs (start : Nat) : List Nat :=
  let (work, met) := meet [] (BitSet.empty g.size) [start]
  g.dfsLoop (g.size + 1) work met

def reachable (start : Nat) : BitSet := BitSet.ofList g.size (g.dfs start)

/-- A node whose successors are being searched: those that are left. -/
structure Frame where
  node : Nat
  left : List Nat

/-- Nodes are listed when they are left. -/
def postorderLoop : Nat → List Frame → BitSet → List Nat
  | 0, _, _ => []
  | _ + 1, [], _ => []
  | fuel + 1, ⟨v, []⟩ :: frames, met => v :: postorderLoop fuel frames met
  | fuel + 1, ⟨v, w :: left⟩ :: frames, met =>
    let (met, isNew) := met.insert w
    if isNew then postorderLoop fuel (⟨w, g.succs w⟩ :: ⟨v, left⟩ :: frames) met
    else postorderLoop fuel (⟨v, left⟩ :: frames) met

def postorder (start : Nat) : List Nat :=
  let (met, isNew) := (BitSet.empty g.size).insert start
  if isNew then
    let steps := g.size + (g.ids.flatMap g.succs).length
    g.postorderLoop (steps + 1) [⟨start, g.succs start⟩] met
  else []

def reversePostorder (start : Nat) : List Nat := (g.postorder start).reverse

/-- Whether `target` is met by a search that does not enter the nodes of `met`. -/
def searchLoop (target : Nat) : Nat → List Nat → BitSet → Bool
  | 0, _, _ => false
  | _ + 1, [], _ => false
  | fuel + 1, v :: work, met =>
    if v = target then true
    else
      let (work, met) := meet work met (g.succs v)
      searchLoop target fuel work met

/-- Whether `target` cannot be met from `root` when `candidate` may not be entered. A node always
dominates itself, and the root dominates everything. -/
def dominatesByPaths (root candidate target : Nat) : Bool :=
  if candidate = target ∨ candidate = root then true
  else
    let (work, met) := meet [] ((BitSet.empty g.size).add candidate) [root]
    !g.searchLoop target (g.size + 1) work met

end FlowOpt.Digraph
