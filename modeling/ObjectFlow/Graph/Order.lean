import ObjectFlow.Graph.Basic

/-!
# Topological order

The order is the reverse of the order in which a depth-first walk leaves the nodes, the walk
starting from the places in turn and following the oldest edges first. It is then checked: an edge
that runs backwards in it shows a cycle.
-/

namespace ObjectFlow.Graph

variable {N E : Type}

/-- A depth-first walk enters a node, and leaves it after everything beyond it. -/
inductive Visit where
  | enter (id : NodeId)
  | leave (id : NodeId)

/--
Walks until nothing is pending. The nodes that were left stand in front of those left earlier. A
node with an edge to itself ends the walk when it is entered.
-/
def walk (g : Graph N E) : List Visit → List NodeId → List NodeId → Except GraphError (List NodeId)
  | [], _, left => .ok left
  | .leave id :: pending, fresh, left => walk g pending fresh (id :: left)
  | .enter id :: pending, fresh, left =>
    if fresh.contains id then
      let targets := (g.outEdges id).map Edge.target
      if targets.contains id then .error (.cycle id)
      else walk g (targets.map Visit.enter ++ .leave id :: pending) (fresh.erase id) left
    else walk g pending fresh left
termination_by pending fresh => (fresh.length, pending.length)
decreasing_by
  · apply Prod.Lex.right
    simp
  · apply Prod.Lex.left
    have h : id ∈ fresh := by simpa using ‹fresh.contains id = true›
    have := List.length_pos_of_mem h
    rw [List.length_erase_of_mem h]
    omega
  · apply Prod.Lex.right
    simp

/-- The source of the first edge that runs backwards in an order. -/
def backward? (g : Graph N E) : List NodeId → List NodeId → Option NodeId
  | _, [] => none
  | earlier, id :: rest =>
    match (g.inEdges id).find? fun e => !earlier.contains e.source with
    | some e => some e.source
    | none => backward? g (id :: earlier) rest

/-- All nodes, with every edge running forwards; a graph with a cycle has no such order. -/
def topologicalOrder (g : Graph N E) : Except GraphError (List NodeId) := do
  let seated := g.seating.seated
  let order ← g.walk (seated.map Visit.enter) seated []
  match g.backward? [] order with
  | some id => .error (.cycle id)
  | none => .ok order

def isAcyclic (g : Graph N E) : Bool :=
  match g.topologicalOrder with
  | .ok _ => true
  | .error _ => false

end ObjectFlow.Graph
