import FlowOpt.Number.Layout

/-!
# Instructions

An instruction is a record of optional fields. One that carries a label marks a place in the code
and does nothing else; every other one is an operation. Records are equal as the program sees them:
literals of different kinds differ, and the two zeros of a double-precision literal do not.
-/

namespace FlowOpt

inductive Literal
  | bool (b : Bool)
  | int (n : Int64)
  | float (x : Binary64)
  deriving DecidableEq

namespace Literal

def equal : Literal → Literal → Bool
  | .bool a, .bool b => a == b
  | .int a, .int b => a == b
  | .float a, .float b => a == b
  | _, _ => false

instance : BEq Literal := ⟨equal⟩

/-- Never an exponent, and decimals only where there are some. -/
def numbers : Layout := ⟨.up, none, 0⟩

def render : Literal → String
  | .bool b => if b then "true" else "false"
  | .int n => toString n.toInt
  | .float x =>
    if x.isNaN then "NaN"
    else if x.isFinite then String.ofList (numbers.render x)
    else if x.negative then "-inf" else "inf"

end Literal

/-- The type of a variable: a name, or a pointer to a type. -/
inductive Ty
  | named (name : String)
  | pointer (target : Ty)
  deriving DecidableEq, Repr

def Ty.render : Ty → String
  | .named name => name
  | .pointer target => "ptr<" ++ target.render ++ ">"

structure Instruction where
  label : Option String := none
  op : Option String := none
  dest : Option String := none
  ty : Option Ty := none
  args : List String := []
  funcs : List String := []
  labels : List String := []
  value : Option Literal := none
  deriving DecidableEq

namespace Instruction

def equal (a b : Instruction) : Bool :=
  a.label == b.label && a.op == b.op && a.dest == b.dest && a.ty == b.ty && a.args == b.args &&
    a.funcs == b.funcs && a.labels == b.labels && a.value == b.value

instance : BEq Instruction := ⟨equal⟩

def atLabel (name : String) : Instruction := { label := some name }

def constant (dest : String) (ty : Ty) (value : Literal) : Instruction :=
  { op := some "const", dest := some dest, ty := some ty, value := some value }

def compute (op dest : String) (ty : Ty) (args : List String) : Instruction :=
  { op := some op, dest := some dest, ty := some ty, args }

/-- An operation without a destination. -/
def effect (op : String) (args : List String) : Instruction := { op := some op, args }

def jump (target : String) : Instruction := { op := some "jmp", labels := [target] }

def branch (condition ifTrue ifFalse : String) : Instruction :=
  { op := some "br", args := [condition], labels := [ifTrue, ifFalse] }

def ret (args : List String) : Instruction := effect "ret" args

/-- A choice by predecessor: coming from `labels[i]`, the destination gets `args[i]`. -/
def phi (dest : String) (ty : Option Ty) (args labels : List String) : Instruction :=
  { op := some "phi", dest := some dest, ty, args, labels }

variable (i : Instruction)

def isLabel : Bool := i.label.isSome

def isTerminator : Bool := i.op == some "jmp" || i.op == some "br" || i.op == some "ret"

/-- Whether the labels of the operation are places it may go to. -/
def isBranch : Bool := i.op == some "jmp" || i.op == some "br"

def isPhi : Bool := i.op == some "phi"

/-- Operations that see or change more than their arguments and destination. -/
def effectful : List String :=
  ["call", "print", "store", "load", "alloc", "free", "phi", "jmp", "br", "ret", "nop",
    "speculate", "guard", "commit"]

def hasSideEffects : Bool :=
  match i.op with
  | some op => effectful.contains op
  | none => false

def constantValue : Option Literal := if i.op = some "const" then i.value else none

def renderDest : String :=
  match i.dest, i.ty with
  | none, _ => ""
  | some dest, none => dest ++ " = "
  | some dest, some ty => dest ++ ": " ++ ty.render ++ " = "

def render : String :=
  match i.label with
  | some label => "." ++ label ++ ":"
  | none =>
    i.renderDest ++ i.op.getD "nop" ++ String.join (i.funcs.map (" @" ++ ·)) ++
      String.join (i.args.map (" " ++ ·)) ++ String.join (i.labels.map (" ." ++ ·)) ++
      (i.value.map fun v => " " ++ v.render).getD "" ++ ";"

end Instruction

end FlowOpt
