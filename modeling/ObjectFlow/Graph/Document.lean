import ObjectFlow.Document
import ObjectFlow.Graph.Basic
import ObjectFlow.Json.Outline

/-! # Documents of graphs -/

namespace ObjectFlow.Graph

variable {N E : Type}

def toJson (node : N → Json) (edge : E → Json) (g : Graph N E) : Json :=
  .obj [
    ("metadata", .obj g.metadata),
    ("nodes", .arr (g.nodes.map fun n =>
      .obj [("id", Document.writeNode n.1), ("data", node n.2)])),
    ("edges", .arr (g.edges.map fun e =>
      .obj [("id", Document.writeEdge e.id), ("source", Document.writeNode e.source),
        ("target", Document.writeNode e.target), ("data", edge e.data)]))]

/-- What is looked at of a document; the data of nodes and edges are looked at as a whole. -/
def extent : Json.Extent :=
  .record [
    ("metadata", .whole),
    ("nodes", .list (.members ["id", "data"])),
    ("edges", .list (.members ["id", "source", "target", "data"]))]

def nodeOfJson (node : Json → Except DecodeError N) (j : Json) :
    Except DecodeError (NodeId × N) := do
  let fs ← Document.record ["id", "data"] j
  let id ← Document.required fs "id" Document.nodeId
  let data ← Document.required fs "data" node
  return (id, data)

def edgeOfJson (edge : Json → Except DecodeError E) (j : Json) : Except DecodeError (Edge E) := do
  let fs ← Document.record ["id", "source", "target", "data"] j
  let id ← Document.required fs "id" Document.edgeId
  let source ← Document.required fs "source" Document.nodeId
  let target ← Document.required fs "target" Document.nodeId
  let data ← Document.required fs "data" edge
  return ⟨id, source, target, data⟩

/-- The graph of nodes and edges that are added one by one. -/
def build (metadata : Table String Json) (nodes : List (NodeId × N)) (edges : List (Edge E)) :
    Except GraphError (Graph N E) := do
  let g ← ({ metadata := metadata } : Graph N E).addNodes nodes
  g.addEdges edges

/-- Reads a document; its identities must be distinct and the ends of its edges declared. -/
def ofJson (node : Json → Except DecodeError N) (edge : Json → Except DecodeError E) (j : Json) :
    Except DecodeError (Graph N E) := do
  let fs ← Document.record ["metadata", "nodes", "edges"] j
  let metadata ← Document.defaulted fs "metadata" [] (Document.table Document.anything)
  let nodes ← Document.required fs "nodes" (Document.list (nodeOfJson node))
  let edges ← Document.required fs "edges" (Document.list (edgeOfJson edge))
  (build metadata nodes edges).mapError .graph

end ObjectFlow.Graph
