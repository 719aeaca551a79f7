import FlowOpt.Names

/-!
# Events

A pass reports what it did and what it noticed. The first six kinds say that code changed.
-/

namespace FlowOpt

inductive EventKind
  | phiInserted
  | variableRenamed
  | entryBlockSynthesized
  | preheaderInserted
  | instructionHoisted
  | edgeRetargeted
  | passStarted
  | passCompleted
  | functionSkipped
  | info
  | warning
  | error
  deriving DecidableEq, Repr

namespace EventKind

def all : List EventKind :=
  [.phiInserted, .variableRenamed, .entryBlockSynthesized, .preheaderInserted,
    .instructionHoisted, .edgeRetargeted, .passStarted, .passCompleted, .functionSkipped, .info,
    .warning, .error]

def render : EventKind → String
  | .phiInserted => "phi inserted"
  | .variableRenamed => "variable renamed"
  | .entryBlockSynthesized => "entry block synthesized"
  | .preheaderInserted => "preheader inserted"
  | .instructionHoisted => "instruction hoisted"
  | .edgeRetargeted => "edge retargeted"
  | .passStarted => "pass started"
  | .passCompleted => "pass completed"
  | .functionSkipped => "function skipped"
  | .info => "info"
  | .warning => "warning"
  | .error => "error"

def ofName? (name : String) : Option EventKind := all.find? (·.render == name)

def isTransformation : EventKind → Bool
  | .phiInserted | .variableRenamed | .entryBlockSynthesized | .preheaderInserted
  | .instructionHoisted | .edgeRetargeted => true
  | _ => false

def isDiagnostic : EventKind → Bool
  | .info | .warning | .error => true
  | _ => false

end EventKind

structure Event where
  kind : EventKind
  function : Option String := none
  /-- The block it is about. -/
  location : Option String := none
  message : String := kind.render
  pass : Option String := none
  deriving DecidableEq, Repr

def Event.render (e : Event) : String :=
  "[" ++ e.kind.render ++ "]" ++ (e.function.map (" @" ++ ·)).getD "" ++
    (e.location.map (" ." ++ ·)).getD "" ++ " " ++ e.message

structure EventLog where
  events : List Event := []
  deriving DecidableEq, Repr

namespace EventLog

variable (log : EventLog)

def size : Nat := log.events.length

def isEmpty : Bool := log.events.isEmpty

def record (e : Event) : EventLog := ⟨log.events ++ [e]⟩

def append (events : List Event) : EventLog := ⟨log.events ++ events⟩

def ofKind (kind : EventKind) : List Event := log.events.filter (·.kind == kind)

def has (kind : EventKind) : Bool := log.events.any (·.kind == kind)

def count (kind : EventKind) : Nat := (log.ofKind kind).length

def ofFunction (function : String) : List Event := log.events.filter (·.function == some function)

def transformations : List Event := log.events.filter (·.kind.isTransformation)

def diagnostics : List Event := log.events.filter (·.kind.isDiagnostic)

/-- The kinds that occur, each with how often it does. -/
def counts : List (EventKind × Nat) :=
  (EventKind.all.filter log.has).map fun kind => (kind, log.count kind)

/-- How many functions some transformation names. -/
def functionsAffected : Nat := (distinct (log.transformations.filterMap (·.function))).length

/-- The transformations by kind, in the order of their text; without any, the number of events. -/
def summary : String :=
  if log.isEmpty then "no events"
  else
    let parts := (log.counts.filter (·.1.isTransformation)).map fun (kind, n) =>
      toString n ++ " " ++ kind.render
    if parts.isEmpty then toString log.size ++ " events"
    else ", ".intercalate (sortedNames parts)

end EventLog

end FlowOpt
