import FlowOpt.Error
import FlowOpt.Names
import FlowOpt.Program.Function

/-!
# Blocks

Code is cut before every label; each piece is a block, named after its label or, if it has none, by
a fresh name. Joining the blocks gives the code back. Where a block can be left at its end the jump
to the next block may be written out.
-/

namespace FlowOpt

structure Block where
  name : String
  instrs : List Instruction
  deriving DecidableEq

/-- What one instruction assigns, under a number of its own. -/
structure Definition where
  name : String
  value : Option Literal
  uid : Nat
  deriving DecidableEq

def Definition.annotatedName (d : Definition) : String := d.name ++ "." ++ toString d.uid

namespace Block

def equal (a b : Block) : Bool := a.name == b.name && a.instrs == b.instrs

instance : BEq Block := ⟨equal⟩

/-- The block that begins with a label of its name. -/
def labeled (name : String) (body : List Instruction) : Block :=
  ⟨name, .atLabel name :: body⟩

variable (b : Block)

def operations : List Instruction := b.instrs.filter (!·.isLabel)

def label : Option String := b.instrs.head?.bind (·.label)

def terminator : Option Instruction := b.instrs.getLast?.filter (·.isTerminator)

def fallsThrough : Bool := b.terminator.isNone

/-- Every label that some jump or branch names. -/
def targets : List String := distinct ((b.instrs.filter (·.isBranch)).flatMap (·.labels))

def ensureLabel : Block :=
  if b.label.isNone then { b with instrs := .atLabel b.name :: b.instrs } else b

/-- Where instructions may be put behind the label. -/
def bodyStart : Nat := if b.label.isSome then 1 else 0

def push (i : Instruction) : Block := { b with instrs := b.instrs ++ [i] }

/-- The instructions put in before position `at`, or at the end beyond it. -/
def insertAt (position : Nat) (instrs : List Instruction) : Block :=
  { b with instrs := b.instrs.take position ++ instrs ++ b.instrs.drop position }

def removeAt (position : Nat) : Block := { b with instrs := b.instrs.eraseIdx position }

def destinations : List String := b.instrs.filterMap (·.dest)

def definedVars : List String := distinct b.destinations

def uses : List String := b.instrs.flatMap (·.args)

/-- The variables read before they are written, where `written` are written already. -/
def exposedUses (written : List String) : List Instruction → List String
  | [] => []
  | i :: rest => i.args.filter (!written.contains ·) ++ exposedUses (written ++ i.dest.toList) rest

/-- The variables whose value on entry is read, sorted. -/
def exposed : List String := sortedNames (exposedUses [] b.instrs)

/-- What the block assigns, numbered from `next` on. -/
def definitions (next : Nat) : List Definition :=
  ((b.instrs.filterMap fun i => i.dest.map (·, i.constantValue)).zipIdx next).map
    fun ((name, value), uid) => ⟨name, value, uid⟩

def flatten (blocks : List Block) : List Instruction := blocks.flatMap (·.instrs)

/-- The code cut before every label. -/
def runs : List Instruction → List (List Instruction)
  | [] => []
  | i :: rest =>
    match runs rest with
    | [] => [[i]]
    | run :: more =>
      if (run.head?.any (·.isLabel)) then [i] :: run :: more else (i :: run) :: more

/-- A run under its label. Only the first run can have none; its name is no label of the code. -/
def ofRun (labels : List String) (run : List Instruction) : Block :=
  let unlabeled (n : Nat) := "b" ++ toString n
  ⟨(run.head?.bind (·.label)).getD (unlabeled (freshIndex unlabeled labels 0)), run⟩

def split (instrs : List Instruction) : Except Error (List Block) :=
  let blocks := (runs instrs).map (ofRun (instrs.filterMap (·.label)))
  match firstRepeat? [] (blocks.map (·.name)) with
  | some name => .error (.duplicateBlock name)
  | none => .ok blocks

/-- The blocks from `b` on, each left by an instruction unless it is the last. -/
def explicitFrom (b : Block) : List Block → List Block
  | [] => [b]
  | next :: rest =>
    if b.fallsThrough then b.push (.jump next.name) :: explicitFrom next.ensureLabel rest
    else b :: explicitFrom next rest

/-- Jumps written out where control would run on into the next block. -/
def addTerminators : List Block → List Block
  | [] => []
  | b :: rest => explicitFrom b rest

end Block

end FlowOpt
