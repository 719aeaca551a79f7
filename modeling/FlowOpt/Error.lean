/-!
# Errors

What can be wrong with code that is cut into blocks, with a graph, or with a question about either.
-/

namespace FlowOpt

/-- An end of an edge. -/
inductive Endpoint
  | source
  | target
  deriving DecidableEq, Repr

def Endpoint.render : Endpoint → String
  | .source => "source"
  | .target => "target"

inductive Error
  | unknownLabel (block label : String)
  | duplicateBlock (name : String)
  | emptyFunction (name : String)
  | blockNotFound (name : String)
  | noBlocks
  /-- Single assignment form was asked for of a graph whose edges are turned round. -/
  | reversedGraph
  | missingNode (endpoint : Endpoint) (node size : Nat)
  | unknownAnalysis (name : String)
  | unknownDirection (name : String)
  /-- An analysis had facts left to pass on when its steps were spent. -/
  | unsettled
  deriving DecidableEq, Repr

namespace Error

def message : Error → String
  | .unknownLabel block label => "Block '" ++ block ++ "' targets unknown label '" ++ label ++ "'"
  | .duplicateBlock name => "Duplicate block name '" ++ name ++ "'"
  | .emptyFunction name => "Function '" ++ name ++ "' has no instructions"
  | .blockNotFound name => "Block '" ++ name ++ "' not found"
  | .noBlocks => "Cannot create a control flow graph from an empty block list"
  | .reversedGraph => "SSA construction requires a forward control flow graph"
  | .missingNode endpoint node size =>
    endpoint.render ++ " node n" ++ toString node ++ " does not exist in graph with " ++
      toString size ++ " nodes"
  | .unknownAnalysis _ => "Matching variant not found"
  | .unknownDirection _ => "Matching variant not found"
  | .unsettled => "The analysis did not settle"

end Error

end FlowOpt
