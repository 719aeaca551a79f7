import FlowOpt.Program.Instruction

/-!
# Functions and programs

A function is a flat list of instructions under a name, with its parameters and the type it
returns, if it has one.
-/

namespace FlowOpt

structure Parameter where
  name : String
  ty : Ty
  deriving DecidableEq, Repr

structure Function where
  name : String
  params : List Parameter := []
  ty : Option Ty := none
  instrs : List Instruction := []
  deriving DecidableEq

def Function.equal (f g : Function) : Bool :=
  f.name == g.name && f.params == g.params && f.ty == g.ty && f.instrs == g.instrs

instance : BEq Function := ⟨Function.equal⟩

structure Program where
  functions : List Function
  deriving DecidableEq

instance : BEq Program := ⟨fun p q => p.functions == q.functions⟩

end FlowOpt
