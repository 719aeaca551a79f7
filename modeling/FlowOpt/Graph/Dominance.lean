import FlowOpt.Graph.Traversal

/-!
# Dominance

A node dominates another if every path from the entry to it passes through the first. The sets of
dominators start at everything reachable and shrink, pass by pass over the nodes in reverse
postorder, until a pass changes none. An unreachable node has itself alone for a dominator.
-/

namespace FlowOpt

structure Dominance where
  entry : Nat
  sets : Array BitSet
  /-- Passes made, the last one without a change included. -/
  passes : Nat
  idoms : Array (Option Nat)
  frontiers : Array BitSet

/-- An element with the greatest key, the last of them. -/
def lastMaxOn {α : Type} (key : α → Nat) (l : List α) : Option α :=
  l.foldl (fun best a =>
    match best with
    | none => some a
    | some b => if key b ≤ key a then some a else some b) none

namespace Digraph

variable {α : Type} (g : Digraph α)

/-- What a pass makes of the dominators of `v`: those common to its live predecessors, and `v`. -/
def commonDominators (live : BitSet) (sets : Array BitSet) (v : Nat) : BitSet :=
  (((g.preds v).filter live.contains).foldl
    (fun acc p => acc.inter (sets[p]?.getD (BitSet.empty g.size))) live).add v

def dominatorPass (entry : Nat) (live : BitSet) (order : List Nat) (sets : Array BitSet) :
    Array BitSet × Bool :=
  order.foldl (fun (sets, changed) v =>
    if v = entry then (sets, changed)
    else
      let next := g.commonDominators live sets v
      if some next = sets[v]? then (sets, changed) else (sets.setIfInBounds v next, true))
    (sets, false)

def dominatorLoop (entry : Nat) (live : BitSet) (order : List Nat) :
    Nat → Array BitSet → Nat → Array BitSet × Nat
  | 0, sets, passes => (sets, passes)
  | fuel + 1, sets, passes =>
    let (next, changed) := g.dominatorPass entry live order sets
    if changed then dominatorLoop entry live order fuel next (passes + 1)
    else (next, passes + 1)

/-- The dominators of every node, and the passes made. A pass with a change takes a node from some
set, so there are at most `size * size` of them. -/
def dominatorSets (entry : Nat) : Array BitSet × Nat :=
  let live := g.reachable entry
  let start := (Array.range g.size).map fun v =>
    if v = entry || !live.contains v then BitSet.ofList g.size [v] else live
  g.dominatorLoop entry live (g.reversePostorder entry) (g.size * g.size + 1) start 0

end Digraph

/-- Of the strict dominators of each node the one with most dominators. -/
def immediateDominators (entry : Nat) (sets : Array BitSet) : Array (Option Nat) :=
  sets.mapIdx fun v set =>
    if v = entry || !set.contains entry then none
    else lastMaxOn (fun d => (sets[d]?.map (·.size)).getD 0) (set.members.filter (· != v))

namespace Dominance

variable (d : Dominance)

def size : Nat := d.sets.size

/-- There is none for a number that is no node. -/
def dominators? (v : Nat) : Option BitSet := d.sets[v]?

def dominates (a b : Nat) : Bool := d.sets[b]?.any (·.contains a)

def strictlyDominates (a b : Nat) : Bool := a != b && d.dominates a b

def isReachable (v : Nat) : Bool := d.dominates d.entry v

def dominatees (v : Nat) : BitSet :=
  BitSet.ofList d.size ((List.range d.size).filter (d.dominates v))

def idom? (v : Nat) : Option Nat := d.idoms[v]?.join

/-- The nodes below `v` in the dominator tree, ascending. -/
def children (v : Nat) : List Nat := (List.range d.size).filter fun w => d.idom? w == some v

def frontier? (v : Nat) : Option BitSet := d.frontiers[v]?

/-- The nodes where the dominance of `v` ends: a dominated node leads there, and `v` does not
strictly dominate them. -/
def frontierOf {α : Type} (g : Digraph α) (v : Nat) : BitSet :=
  if d.isReachable v then
    BitSet.ofList d.size
      ((d.dominatees v).members.flatMap fun w =>
        (g.succs w).filter (!d.strictlyDominates v ·))
  else BitSet.empty d.size

def iteratedLoop : Nat → List Nat → BitSet → BitSet → BitSet
  | 0, _, result, _ => result
  | _ + 1, [], result, _ => result
  | fuel + 1, v :: work, result, seen =>
    let found := ((d.frontier? v).map (·.members)).getD []
    let (work, result, seen) := found.foldl (fun (work, result, seen) w =>
      let (result, isNew) := result.insert w
      if isNew then
        let (seen, isNew) := seen.insert w
        (if isNew then w :: work else work, result, seen)
      else (work, result, seen)) (work, result, seen)
    iteratedLoop fuel work result seen

/-- The frontiers of the seeds, of the nodes found there, and so on. -/
def iteratedFrontier (seeds : List Nat) : BitSet :=
  let (work, seen) := Digraph.meet [] (BitSet.empty d.size) seeds
  d.iteratedLoop (d.size + 1) work (BitSet.empty d.size) seen

/-- The dominance of a graph from an entry, which need not be a node of it. -/
def ofGraph {α : Type} (g : Digraph α) (entry : Nat) : Dominance :=
  let (sets, passes) := g.dominatorSets entry
  let d : Dominance := ⟨entry, sets, passes, immediateDominators entry sets, #[]⟩
  { d with frontiers := (Array.range d.size).map (d.frontierOf g) }

end Dominance

end FlowOpt
