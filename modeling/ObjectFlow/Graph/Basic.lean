import ObjectFlow.Graph.Error
import ObjectFlow.Graph.Seating
import ObjectFlow.Json.Value

/-!
# Directed graphs with named parallel edges

A graph is the list of its nodes and the list of its edges, both in the order in which they were
added. Adding keeps the identities distinct and both ends of every edge among the nodes. All
queries are filters of these lists. Beside them stands the seating of the nodes, on which only the
choice between topological orders depends.
-/

namespace ObjectFlow

universe u v

structure Edge (E : Type) where
  id : EdgeId
  source : NodeId
  target : NodeId
  data : E
deriving DecidableEq, Repr

/-- Nodes and edges stand in the order in which they were added. -/
structure Graph (N E : Type) where
  nodes : Table NodeId N := []
  edges : List (Edge E) := []
  metadata : Table String Json := []
  seating : Seating := {}

namespace Graph

variable {N E : Type}

def nodeIds (g : Graph N E) : List NodeId := g.nodes.map Prod.fst

def node? (g : Graph N E) (id : NodeId) : Option N := Table.at? g.nodes id

def hasNode (g : Graph N E) (id : NodeId) : Bool := Table.holds g.nodes id

def edge? (g : Graph N E) (id : EdgeId) : Option (Edge E) := g.edges.find? fun e => e.id = id

def hasEdge (g : Graph N E) (id : EdgeId) : Bool := g.edges.any fun e => e.id = id

/-- The nodes whose data satisfies a condition. -/
def nodesWhere (g : Graph N E) (p : N → Bool) : List NodeId :=
  (g.nodes.filter fun n => p n.2).map Prod.fst

def outEdges (g : Graph N E) (id : NodeId) : List (Edge E) := g.edges.filter fun e => e.source = id

def inEdges (g : Graph N E) (id : NodeId) : List (Edge E) := g.edges.filter fun e => e.target = id

def between (g : Graph N E) (source target : NodeId) : List (Edge E) :=
  (g.outEdges source).filter fun e => e.target = target

/-- Whether an edge runs from one node to another. -/
def linked (g : Graph N E) (source target : NodeId) : Bool := !(g.between source target).isEmpty

/-- The distinct targets of a node's edges, in the order of the first edge to each. -/
def successors (g : Graph N E) (id : NodeId) : List NodeId :=
  ((g.outEdges id).map Edge.target).eraseDups

def predecessors (g : Graph N E) (id : NodeId) : List NodeId :=
  ((g.inEdges id).map Edge.source).eraseDups

/-- Adds a node that is known to be new. -/
def attachNode (g : Graph N E) (id : NodeId) (data : N) : Graph N E :=
  { g with nodes := g.nodes ++ [(id, data)], seating := g.seating.seat id }

def addNode (g : Graph N E) (id : NodeId) (data : N) : Except GraphError (Graph N E) :=
  if g.hasNode id then .error (.duplicateNode id) else .ok (g.attachNode id data)

/-- Adds an edge at the end; an identity that is taken is noticed before an end that is missing. -/
def addEdge (g : Graph N E) (e : Edge E) : Except GraphError (Graph N E) :=
  if g.hasEdge e.id then .error (.duplicateEdge e.id)
  else if !g.hasNode e.source then .error (.nodeNotFound e.source)
  else if !g.hasNode e.target then .error (.nodeNotFound e.target)
  else .ok { g with edges := g.edges ++ [e] }

/-- Removes a node and every edge that touches it. -/
def removeNode (g : Graph N E) (id : NodeId) : Graph N E :=
  if g.hasNode id then
    { g with
      nodes := Table.without g.nodes id
      edges := g.edges.filter fun e => e.source ≠ id ∧ e.target ≠ id
      seating := g.seating.unseat id }
  else g

def removeEdge (g : Graph N E) (id : EdgeId) : Graph N E :=
  { g with edges := g.edges.filter fun e => e.id ≠ id }

def adjustNode (g : Graph N E) (id : NodeId) (f : N → N) : Graph N E :=
  { g with nodes := Table.adjust f id g.nodes }

def adjustEdge (g : Graph N E) (id : EdgeId) (f : E → E) : Graph N E :=
  { g with edges := g.edges.map fun e => if e.id = id then { e with data := f e.data } else e }

/-- The same nodes and edges with other data, seated anew. -/
def mapData {N' E' : Type} (g : Graph N E) (onNode : NodeId → N → N') (onEdge : Edge E → E') :
    Graph N' E' where
  nodes := g.nodes.map fun n => (n.1, onNode n.1 n.2)
  edges := g.edges.map fun e => ⟨e.id, e.source, e.target, onEdge e⟩
  metadata := g.metadata
  seating := .inOrder g.nodeIds

/-- The nodes and edges alone. -/
def skeleton (g : Graph N E) : Graph Unit Unit :=
  { g.mapData (fun _ _ => ()) (fun _ => ()) with metadata := [] }

/-- Adds nodes and edges in their order, up to the first that is refused. -/
def addNodes (g : Graph N E) (ns : List (NodeId × N)) : Except GraphError (Graph N E) :=
  ns.foldlM (fun g n => g.addNode n.1 n.2) g

def addEdges (g : Graph N E) (es : List (Edge E)) : Except GraphError (Graph N E) :=
  es.foldlM addEdge g

@[simp] theorem nodes_removeEdge (g : Graph N E) (id : EdgeId) :
    (g.removeEdge id).nodes = g.nodes := rfl

@[simp] theorem edges_attachNode (g : Graph N E) (id : NodeId) (data : N) :
    (g.attachNode id data).edges = g.edges := rfl

@[simp] theorem nodeIds_mapData {N' E' : Type} (g : Graph N E) (onNode : NodeId → N → N')
    (onEdge : Edge E → E') : (g.mapData onNode onEdge).nodeIds = g.nodeIds := by
  simp [mapData, nodeIds, Function.comp_def]

theorem nodes_addEdge {g g' : Graph N E} {e : Edge E} (h : g.addEdge e = .ok g') :
    g'.nodes = g.nodes := by
  unfold addEdge at h
  split at h
  · cases h
  · split at h
    · cases h
    · split at h
      · cases h
      · cases h
        rfl

theorem hasNode_removeNode_of_ne (g : Graph N E) {a b : NodeId} (h : b ≠ a) :
    (g.removeNode a).hasNode b = g.hasNode b := by
  unfold removeNode
  split
  · simp only [hasNode, Table.holds, Table.at?_without_of_ne g.nodes h]
  · rfl

theorem length_removeNode_lt {g : Graph N E} {a : NodeId} (h : g.hasNode a) :
    (g.removeNode a).nodes.length < g.nodes.length := by
  simp only [removeNode, h, if_true]
  exact Table.length_without_lt h

theorem hasNode_attachNode {g : Graph N E} {a : NodeId} (hub : NodeId) (x : N) (h : g.hasNode a) :
    (g.attachNode hub x).hasNode a := by
  have key : ∀ (t : Table NodeId N),
      (Table.at? t a).isSome → (Table.at? (t ++ [(hub, x)]) a).isSome := by
    intro t
    induction t with
    | nil => simp
    | cons e t ih =>
      intro ht
      simp only [List.cons_append, Table.at?] at ht ⊢
      split
      · rfl
      · rename_i hne
        rw [if_neg hne] at ht
        exact ih ht
  exact key g.nodes h

end Graph

end ObjectFlow
