import ObjectFlow.Graph.Order

/-!
# Transitive closure

The nodes beyond a node are found from the end of a topological order, where those beyond its
successors are known already.
-/

namespace ObjectFlow.Graph

variable {N E : Type}

/-- For every node of an order the distinct nodes beyond it, found from the end of the order. -/
def beyond (g : Graph N E) (order : List NodeId) : Table NodeId (List NodeId) :=
  order.foldr
    (fun id known =>
      let further := (g.successors id).flatMap fun s => s :: (Table.at? known s).getD []
      (id, further.eraseDups) :: known)
    []

/-- Edges between given ends, with fresh identities. -/
def freshEdges (s : Supply) : List (NodeId × NodeId) → List (Edge Unit) × Supply
  | [] => ([], s)
  | (source, target) :: rest =>
    let (id, s) := s.edge
    let (edges, s) := freshEdges s rest
    (⟨id, source, target, ()⟩ :: edges, s)

/--
The nodes of an acyclic graph with one edge from each of them to every node that a path from it
reaches.
-/
def closure (g : Graph N E) (s : Supply) : Except GraphError (Graph Unit Unit × Supply) := do
  let order ← g.topologicalOrder
  let ends := (g.beyond order).flatMap fun b => b.2.map fun target => (b.1, target)
  let (edges, s) := freshEdges s ends
  return ({ g.skeleton with edges := edges }, s)

end ObjectFlow.Graph
