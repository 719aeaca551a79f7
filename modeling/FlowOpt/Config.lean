import FlowOpt.Pass.Basic

/-!
# Settings

Which passes run and what they call the names they make up.
-/

namespace FlowOpt

structure Config where
  enableSsa : Bool := false
  enableLicm : Bool := true
  addTerminators : Bool := true
  /-- Functions do not depend on each other, so this does not change what comes out. -/
  parallel : Bool := false
  undefinedName : String := SsaForm.defaultUndefined
  names : HoistNames := {}
  maxLicmRounds : Nat := 1
  deriving DecidableEq, Repr

namespace Config

/-- No pass runs. -/
def disabled : Config := { enableLicm := false }

variable (c : Config)

def anyEnabled : Bool := c.enableSsa || c.enableLicm

def passes : List Pass :=
  (if c.enableSsa then [.ssa c.undefinedName c.names.entry] else []) ++
    if c.enableLicm then [.licm c.names c.maxLicmRounds] else []

end Config

end FlowOpt
