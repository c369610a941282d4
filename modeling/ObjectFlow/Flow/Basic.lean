import ObjectFlow.Flow.Node
import ObjectFlow.Graph.Basic

/-!
# Flow graphs

What comes from outside a scope leaves its input marker, and what is left at its end enters its
output marker, where an object has at most one edge in a recorded graph: the one from its last
producer.
-/

namespace ObjectFlow

/--
A graph of calls between a marker for what comes from outside and a marker for what is left at the
end.
-/
structure Flow where
  graph : Graph Flow.Node Flow.Link
  input : NodeId
  output : NodeId

namespace Flow

/-- The two markers alone. -/
def empty (s : Supply) : Flow × Supply :=
  let (input, s) := s.node
  let (output, s) := s.node
  let g : Graph Node Link := {}
  (⟨(g.attachNode input .input).attachNode output .output, input, output⟩, s)

def isMarker (f : Flow) (id : NodeId) : Bool := id = f.input || id = f.output

/-- All nodes but two count as calls. -/
def callCount (f : Flow) : Nat := f.graph.nodes.length - 2

def calls (f : Flow) : List (NodeId × Call) :=
  f.graph.nodes.filterMap fun n => n.2.call?.map fun c => (n.1, c)

def adjustCall (f : Flow) (id : NodeId) (change : Call → Call) : Flow :=
  { f with graph := f.graph.adjustNode id (Node.mapCall change) }

/-- For every object that is left at the end the edge that leads it there; of several the last. -/
def outputs (f : Flow) : Table ObjectId (Edge Link) :=
  Table.ofEntries ((f.graph.inEdges f.output).filterMap fun e =>
    e.data.object.id.map fun o => (o, e))

/-- Everything but the markers and the edges at them. -/
def inner (f : Flow) : List (NodeId × Node) × List (Edge Link) :=
  (f.graph.nodes.filter fun n => !f.isMarker n.1,
    f.graph.edges.filter fun e => !f.isMarker e.source && !f.isMarker e.target)

/-- Adds the calls of another graph and the edges between them under their identities. -/
def adopt (f other : Flow) : Except GraphError Flow := do
  let g ← f.graph.addNodes other.inner.1
  let g ← g.addEdges other.inner.2
  return { f with graph := g }

end Flow

end ObjectFlow
