import FlowOpt.FlowGraph.Basic

/-!
# Facts and analyses

A mapping gives a fact to some variables. An analysis says how the mappings that flow into a block
become one, and what the block makes of it. In the order of the flow a block's input comes before
its output, so for a backward analysis the input is what holds at its end.
-/

namespace FlowOpt

inductive Direction
  | forward
  | backward
  deriving DecidableEq, Repr

namespace Direction

def render : Direction → String
  | .forward => "forward"
  | .backward => "backward"

def ofName? (name : String) : Option Direction :=
  [forward, backward].find? (·.render == name)

end Direction

/-- What is known of a variable. -/
inductive Fact
  /-- Its value may be the one of that version. -/
  | version (n : Nat)
  | const (value : Literal)
  | notConst
  | live
  deriving DecidableEq

namespace Fact

def equal : Fact → Fact → Bool
  | .version m, .version n => m == n
  | .const a, .const b => a == b
  | .notConst, .notConst => true
  | .live, .live => true
  | _, _ => false

instance : BEq Fact := ⟨equal⟩

def render : Fact → String
  | .version n => toString n
  | .const value => value.render
  | .notConst => "?"
  | .live => "live"

end Fact

abbrev FactMap := NameMap Fact

namespace FactMap

/-- The facts of all mappings; a later mapping replaces what an earlier one says. -/
def union (maps : List FactMap) : FactMap :=
  maps.foldl (fun merged m => merged.insertAll m.entries) {}

end FactMap

structure Analysis where
  direction : Direction
  merge : List FactMap → FactMap
  transfer : FlowNode → FactMap → FactMap

end FlowOpt
