import ObjectFlow.Flow.Recording

/-!
# Bodies in place of calls

A call with a body is replaced by the calls of the body. What the body takes from outside is taken
from where the call took it, and what it leaves goes to where the call sent it.
-/

namespace ObjectFlow

namespace Flow

/--
The edges that lead from outside into the calls of a body which stands in the place of a call.
-/
def inward (f : Flow) (node : NodeId) (body : Flow) : List (NodeId × NodeId × Link) :=
  (body.graph.outEdges body.input).map fun e =>
    match (f.graph.inEdges node).find? fun outer => outer.data.carries e.data.object.id with
    | some outer => (outer.source, e.target, { e.data with sourcePin := outer.data.sourcePin })
    | none => (f.input, e.target, { e.data with sourcePin := none })

/--
The edges that lead out of them: one for every edge of the body and every edge of the call with
the same object.
-/
def outward (f : Flow) (node : NodeId) (body : Flow) : List (NodeId × NodeId × Link) :=
  (body.graph.inEdges body.output).flatMap fun e =>
    let outers := (f.graph.outEdges node).filter fun outer => outer.data.carries e.data.object.id
    outers.map fun outer =>
      (e.source, outer.target, { e.data with targetPin := outer.data.targetPin })

/-- Adds edges with fresh identities. -/
def connect (f : Flow) (s : Supply) :
    List (NodeId × NodeId × Link) → Except GraphError (Flow × Supply)
  | [] => .ok (f, s)
  | (source, target, link) :: rest => do
    let (id, s) := s.edge
    let g ← f.graph.addEdge ⟨id, source, target, link⟩
    connect { f with graph := g } s rest

/-- Puts a flat body in the place of a call. -/
def inline (f : Flow) (s : Supply) (node : NodeId) (body : Flow) :
    Except GraphError (Flow × Supply) := do
  let f ← f.adopt body
  let (f, s) ← f.connect s (f.inward node body ++ f.outward node body)
  return ({ f with graph := f.graph.removeNode node }, s)

/-- Inlines the bodies of calls; each is taken from a table of flat bodies and used up. -/
def inlineAll (f : Flow) (s : Supply) (flat : Table Handle Flow) :
    List (NodeId × Handle) → Except FlowError (Flow × Supply × Table Handle Flow)
  | [] => .ok (f, s, flat)
  | (node, h) :: rest =>
    match Table.at? flat h with
    | none => .error (.invalid (.bodyUsed h))
    | some body => do
      let (f, s) ← (f.inline s node body).mapError .graph
      inlineAll f s (Table.without flat h) rest

end Flow

namespace Recording

/--
Flattens the graphs from the last to the first, so that every body is flat when its call is met.
-/
def flattenAll (s : Supply) :
    List (Handle × Flow) → Except FlowError (Supply × Table Handle Flow)
  | [] => .ok (s, [])
  | (h, f) :: rest => do
    let (s, flat) ← flattenAll s rest
    let (f, s, flat) ← f.inlineAll s flat (bodies f)
    return (s, Table.put flat h f)

def handles (r : Recording) : List (Handle × Flow) := r.graphs.zipIdx.map fun g => (⟨g.2⟩, g.1)

/-- The outermost scope with all bodies in the places of their calls. -/
def flatten (r : Recording) (s : Supply) : Except FlowError (Flow × Supply) := do
  r.validate
  let (s, flat) ← flattenAll s r.handles
  match Table.at? flat r.root with
  | some f => return (f, s)
  | none => .error (.invalid (.rootUsed r.root))

end Recording

end ObjectFlow
