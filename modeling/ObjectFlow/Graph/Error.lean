import ObjectFlow.Identity

/-! # What can go wrong with a graph -/

namespace ObjectFlow

inductive GraphError where
  | nodeNotFound (id : NodeId)
  | duplicateNode (id : NodeId)
  | duplicateEdge (id : EdgeId)
  | cycle (through : NodeId)
deriving DecidableEq, Repr

def GraphError.message : GraphError → String
  | .nodeNotFound id => "node not found: " ++ id.label
  | .duplicateNode id => "duplicate node: " ++ id.label
  | .duplicateEdge id => "duplicate edge: " ++ id.label
  | .cycle id => "graph contains a cycle through node " ++ id.label

end ObjectFlow
