import FlowOpt.FlowGraph.Basic
import FlowOpt.Ssa.Phi

/-!
# Renaming to versions

Every assignment gets a version of its own, counted for each variable along a walk over the
dominator tree. What a variable is called when a block is entered is what it was called at the end
of the block that immediately dominates it; a variable that has no name there is undefined.
-/

namespace FlowOpt.Ssa

/-- What the walk leaves behind: a mapping of names is handed down instead. -/
structure Walk where
  counters : NameMap Nat
  definitions : Nat
  undefinedUses : Nat
  /-- The phis of every node, by the variable whose versions meet. -/
  phis : Array (NameMap Phi)
  /-- The code of the nodes that were visited. -/
  renamed : Array (Option (List Instruction))

/-- What every variable is called. -/
abbrev Env := NameMap String

/-- The next version of a variable, which is then called so. -/
def fresh (x : String) (env : Env) (w : Walk) : String × Env × Walk :=
  let n := (w.counters.get? x).getD 0
  let name := FlowGraph.numbered x n
  (name, env.insert x name,
    { w with counters := w.counters.insert x (n + 1), definitions := w.definitions + 1 })

/-- Every phi of a node assigns a version. -/
def namePhis (node : Nat) (phis : List (String × Phi)) (env : Env) (w : Walk) : Env × Walk :=
  phis.foldl (fun (env, w) (x, p) =>
    let (name, env, w) := fresh x env w
    (env, { w with phis := w.phis.modify node (·.insert x { p with dest := some name }) })) (env, w)

/-- The arguments are read before the destination is written. -/
def renameInstrs (undefined : String) : List Instruction → Env → Walk →
    List Instruction × Env × Walk
  | [], env, w => ([], env, w)
  | i :: rest, env, w =>
    let args := i.args.map fun x => (env.get? x).getD undefined
    let missing := i.args.countP fun x => !env.contains x
    let w := { w with undefinedUses := w.undefinedUses + missing }
    match i.dest with
    | none =>
      let (rest, env, w) := renameInstrs undefined rest env w
      ({ i with args } :: rest, env, w)
    | some x =>
      let (name, env, w) := fresh x env w
      let (rest, env, w) := renameInstrs undefined rest env w
      ({ i with args, dest := some name } :: rest, env, w)

/-- What the phis of a successor get from the block that is being left. -/
def feedPhis (undefined block : String) (env : Env) (w : Walk) (succ : Nat) : Walk :=
  ((w.phis[succ]?.getD {}).entries).foldl (fun w (x, p) =>
    let value := (env.get? x).getD undefined
    { w with
      undefinedUses := w.undefinedUses + if env.contains x then 0 else 1
      phis := w.phis.modify succ (·.insert x (p.addOperand block value)) }) w

variable (g : FlowGraph) (d : Dominance) (undefined : String)

/-- A block, and then the blocks below it in the dominator tree, by name. The tree is no deeper
than the graph has nodes. -/
def rename : Nat → Nat → Env → Walk → Walk
  | 0, _, _, w => w
  | fuel + 1, v, env, w =>
    match g.node? v with
    | none => w
    | some node =>
      let (env, w) := namePhis v (w.phis[v]?.getD {}).entries env w
      let (instrs, env, w) := renameInstrs undefined node.block.instrs env w
      let w := { w with renamed := w.renamed.setIfInBounds v (some instrs) }
      let w := (g.graph.succs v).foldl (feedPhis undefined node.block.name env) w
      let children := (d.children v).mergeSort fun a b => g.nameOf a ≤ g.nameOf b
      children.foldl (fun w c => rename fuel c env w) w

/-- The nodes that assign each variable, and the first type that an assignment gives it. -/
def definitionSites : NameMap (List Nat × Option Ty) :=
  let defs := g.nodes.zipIdx.flatMap fun (n, v) =>
    n.block.instrs.filterMap fun i => i.dest.map fun x => (x, v, i.ty)
  defs.foldl (fun sites (x, v, ty) =>
    match sites.get? x with
    | none => sites.insert x ([v], ty)
    | some (nodes, old) =>
      sites.insert x (if nodes.contains v then nodes else nodes ++ [v], old.or ty)) {}

/-- A phi for a variable wherever two of its assignments may meet. -/
def placePhis : Array (NameMap Phi) :=
  (definitionSites g).entries.foldl (fun phis (x, nodes, ty) =>
    (d.iteratedFrontier nodes).members.foldl (fun phis v =>
      phis.modify v (·.insert x { source := x, ty })) phis)
    (Array.replicate g.size {})

end FlowOpt.Ssa
