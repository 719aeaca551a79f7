import FlowOpt.Dataflow.Worklist

/-!
# The four analyses

Reaching versions, versions defined so far, live variables and constants. The first three take the
union of what flows in; where two predecessors of a constant disagree the variable is none.
-/

namespace FlowOpt

namespace FlowNode

variable (n : FlowNode)

/-- The versions that the block gives to the variables it assigns. -/
def ownVersions : List (String × Fact) := n.versions.entries.map fun (x, k) => (x, .version k)

/-- For every variable that the block assigns what its last assignment makes of it. -/
def ownConstants : FactMap :=
  .ofList (n.block.instrs.filterMap fun i =>
    i.dest.map (·, (i.constantValue.map Fact.const).getD .notConst))

end FlowNode

/-- The facts of both mappings, and none about constants where they differ. -/
def FactMap.join (into incoming : FactMap) : FactMap :=
  incoming.entries.foldl (fun joined (x, fact) =>
    match NameMap.get? joined x with
    | none => joined.insert x fact
    | some old => if old == fact then joined else joined.insert x .notConst) into

/-- A block's own versions replace what comes in. -/
def reachingDefinitions : Analysis where
  direction := .forward
  merge := .union
  transfer n input := input.insertAll n.ownVersions

/-- What comes in replaces a block's own versions. -/
def definedVariables : Analysis where
  direction := .forward
  merge := .union
  transfer n input := (NameMap.ofList n.ownVersions).insertAll input.entries

/-- A variable that the block assigns is live before it only if the block reads it first. -/
def liveVariables : Analysis where
  direction := .backward
  merge := .union
  transfer n input :=
    (input.filter fun x _ => !n.versions.contains x).insertAll
      (n.block.exposed.map (·, .live))

def constantPropagation : Analysis where
  direction := .forward
  merge := fun maps => maps.foldl FactMap.join {}
  transfer n input := n.ownConstants.join input

inductive AnalysisKind
  | reaching
  | defined
  | live
  | constants
  deriving DecidableEq, Repr

namespace AnalysisKind

def all : List AnalysisKind := [.reaching, .defined, .live, .constants]

def render : AnalysisKind → String
  | .reaching => "reaching"
  | .defined => "defined"
  | .live => "live"
  | .constants => "cprop"

def ofName? (name : String) : Option AnalysisKind := all.find? (·.render == name)

def analysis : AnalysisKind → Analysis
  | .reaching => reachingDefinitions
  | .defined => definedVariables
  | .live => liveVariables
  | .constants => constantPropagation

/-- The analysis run in a direction, which may not be its own. -/
def directed (kind : AnalysisKind) (direction : Direction) : Analysis :=
  { kind.analysis with direction }

end AnalysisKind

end FlowOpt
