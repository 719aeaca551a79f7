import FlowOpt.Hoist.Preheader
import FlowOpt.Pass.Event
import FlowOpt.Ssa.Form

/-!
# Passes

A pass transforms one function. It leaves a function behind whether it succeeds or not, with the
events it reported up to there; when it succeeds it says whether anything changed.
-/

namespace FlowOpt

structure PassRun where
  function : Function
  events : List Event
  result : Except Error Bool

structure Pass where
  name : String
  description : String := "No description available"
  shouldRun : Function → Bool := fun f => !f.instrs.isEmpty
  run : Function → PassRun

namespace SsaForm

/-- What the construction of a form did to a function. -/
def events (form : SsaForm) (g : FlowGraph) (function undefined : String) : List Event :=
  let entry : List Event :=
    if g.hasSyntheticEntry then
      [{ kind := .entryBlockSynthesized, function, location := g.nameOf g.entry, pass := "ssa" }]
    else []
  let phis : List Event := form.phis.entries.flatMap fun (block, phis) =>
    phis.map fun p =>
      { kind := .phiInserted, function, location := block, message := p.render, pass := "ssa" }
  let renamed : List Event :=
    if 0 < form.renamed then
      [{ kind := .variableRenamed, function, pass := "ssa",
         message := toString form.renamed ++ " definitions renamed" }]
    else []
  let missing : List Event :=
    if 0 < form.undefinedUses then
      [{ kind := .warning,
         message := function ++ ": " ++ toString form.undefinedUses ++ " uses read " ++
           undefined }]
    else []
  entry ++ phis ++ renamed ++ missing

end SsaForm

/-- Static single assignment form, with the name for undefined variables and for a new entry. -/
def Pass.ssa (undefined entry : String) : Pass where
  name := "ssa"
  description := "Places phi instructions and renames every definition to a unique version"
  run f :=
    let built : Except Error (FlowGraph × SsaForm) := do
      let g ← f.explicitGraph entry
      return (g, ← SsaForm.ofGraph g f.paramNames undefined)
    match built with
    | .error e => ⟨f, [], .error e⟩
    | .ok (g, form) =>
      ⟨{ f with instrs := form.instrs }, form.events g f.name undefined,
        .ok (form.instrs != f.instrs)⟩

namespace HoistOutcome

def events (o : HoistOutcome) (function : String) : List Event :=
  let report (kind : EventKind) (block message : String) : Event :=
    { kind, function, location := block, message, pass := "licm" }
  o.skipped.map (fun header => report .warning header ("loop at " ++ header ++ " left in place")) ++
    o.preheaders.map (fun (preheader, header) =>
      report .preheaderInserted preheader (preheader ++ " precedes " ++ header)) ++
    o.hoisted.map (fun h => report .instructionHoisted h.block h.instr.render) ++
    o.retargeted.map fun (block, preheader) =>
      report .edgeRetargeted block ("now jumps to " ++ preheader)

end HoistOutcome

/-- Up to `rounds` rounds of hoisting; a round that moves nothing is the last. -/
def hoistRounds (names : HoistNames) : Nat → PassRun → PassRun
  | 0, r => r
  | rounds + 1, r =>
    match Block.split r.function.instrs >>= Block.hoist names with
    | .error e => { r with result := .error e }
    | .ok o =>
      let events := r.events ++ o.events r.function.name
      if o.changed then
        hoistRounds names rounds
          ⟨{ r.function with instrs := Block.flatten o.blocks }, events, .ok true⟩
      else { r with events }

/-- Loop-invariant code motion, at least one round of it. -/
def Pass.licm (names : HoistNames) (rounds : Nat) : Pass where
  name := "licm"
  description := "Moves loop-invariant computations to loop preheaders"
  run f := hoistRounds names (max rounds 1) ⟨f, [], .ok false⟩

end FlowOpt
