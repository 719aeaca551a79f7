import FlowOpt.Config

/-!
# Pipelines

A pipeline runs its passes on one function after the other, once the fallthroughs of the function
are written out. A function on which something fails is left as it was; the events up to there
stay in the log.
-/

namespace FlowOpt

structure Pipeline where
  passes : List Pass := []
  addTerminators : Bool := true

structure PipelineRun where
  program : Program
  log : EventLog
  /-- The number of functions that changed. -/
  changed : Nat

namespace Pipeline

def ofConfig (c : Config) : Pipeline := ⟨c.passes, c.addTerminators⟩

/-- One pass on a function that earlier passes may have changed. -/
def runPass (r : PassRun) (p : Pass) : PassRun :=
  match r.result with
  | .error _ => r
  | .ok changed =>
    if p.shouldRun r.function then
      let next := p.run r.function
      let events := r.events ++ next.events
      match next.result with
      | .error e => ⟨next.function, events, .error e⟩
      | .ok false => ⟨next.function, events, .ok changed⟩
      | .ok true =>
        let completed : Event :=
          { kind := .passCompleted, function := next.function.name, message := "changed",
            pass := p.name }
        ⟨next.function, events ++ [completed], .ok true⟩
    else
      let skipped : Event :=
        { kind := .functionSkipped, function := r.function.name, pass := p.name }
      { r with events := r.events ++ [skipped] }

/-- A function with its fallthroughs written out. -/
def explicit (f : Function) : PassRun :=
  if f.instrs.isEmpty then ⟨f, [], .ok false⟩
  else
    match Block.split f.instrs with
    | .error e => ⟨f, [], .error e⟩
    | .ok blocks =>
      let instrs := Block.flatten (Block.addTerminators blocks)
      ⟨{ f with instrs }, [], .ok (instrs != f.instrs)⟩

variable (p : Pipeline)

def runPasses (f : Function) : PassRun :=
  p.passes.foldl runPass (if p.addTerminators then explicit f else ⟨f, [], .ok false⟩)

/-- The function after the pipeline, the events on the way, and whether it changed. -/
def runFunction (f : Function) : Function × List Event × Bool :=
  let r := p.runPasses f
  match r.result with
  | .ok changed => (r.function, r.events, changed)
  | .error e =>
    (f, r.events ++ [{ kind := .error, function := f.name, message := e.message }], false)

def announcements : List Event :=
  p.passes.map fun pass =>
    { kind := .passStarted, message := pass.description, pass := pass.name }

def run (program : Program) : PipelineRun :=
  let runs := program.functions.map p.runFunction
  { program := ⟨runs.map (·.1)⟩
    log := ⟨p.announcements ++ runs.flatMap (·.2.1)⟩
    changed := runs.countP (·.2.2) }

end Pipeline

end FlowOpt
