import ObjectFlow.Annotated.Draft
import ObjectFlow.Graph.Order
import ObjectFlow.Graph.Rewire

/-!
# Objects as entities

Every object that an action gives out becomes an entity behind it, and every object that it takes in
is the entity of the action that gave it out, if there is just one.
-/

namespace ObjectFlow.Annotated

namespace Candidate

/-- Another entity that the object comes from. -/
def addSource (p : Candidate) (id : NodeId) : Candidate :=
  if p.sources.contains id then p else { p with sources := p.sources ++ [id] }

end Candidate

namespace Draft

/-- Adds the objects of edges to those of the pins. -/
def gather (d : Draft) (extend : Candidate → Edge Thread → Candidate) (t : Candidates)
    (edges : List (Edge Thread)) : Candidates :=
  edges.foldl
    (fun t e =>
      let old := (Table.at? t e.data.id).getD ⟨d.profile e.data.id, [], []⟩
      Table.put t e.data.id (extend old e)) t

/--
Puts one edge for every pin in the place of the edges that carry an object from one node to
another.
-/
def attachPins (g : Graph Node Thread) (s : Supply) (source target : NodeId) (id : ObjectId)
    (pins : List String) : Except GraphError (Graph Node Thread × Supply) :=
  if pins.isEmpty then .ok (g, s)
  else
    let stale := (g.between source target).filter fun e => e.data.id = id
    pins.foldlM
      (fun (g, s) pin => do
        let (edge, s) := s.edge
        let g ← g.addEdge ⟨edge, source, target, ⟨id, some pin⟩⟩
        return (g, s))
      ((stale.map Edge.id).foldl Graph.removeEdge g, s)

/-- An entity without a note takes over what is known about the object elsewhere. -/
def absorb (p : Profile) : Node → Node
  | .entity e =>
    if e.profile.note.isSome then .entity e
    else .entity (.ofProfile {
      id := p.id <|> e.profile.id
      note := p.note <|> e.profile.note
      value := p.value <|> e.profile.value
      type := p.type <|> e.profile.type
      slots := if p.slots.isEmpty then e.profile.slots else p.slots })
  | n => n

/-- Leads an entity into an action as one of its inputs. -/
def takeFrom (g : Graph Node Thread) (s : Supply) (action : NodeId) (id : ObjectId) (p : Candidate)
    (entity : NodeId) : Except GraphError (Graph Node Thread × Supply) := do
  let (g, s) ← attachPins g s entity action id p.pins
  return (g.adjustNode entity (absorb p.profile), s)

/-- Makes an object an input of an action; one that comes from several entities is left as it is. -/
def reifyInput (g : Graph Node Thread) (s : Supply) (action : NodeId) (id : ObjectId)
    (p : Candidate) : Except GraphError (Graph Node Thread × Supply) :=
  match p.sources with
  | [] => do
    let (entity, s) := s.node
    let g ← g.addNode entity (.entity {})
    let (edge, s) := s.edge
    let g ← g.addEdge ⟨edge, entity, action, ⟨id, none⟩⟩
    takeFrom g s action id p entity
  | [entity] => takeFrom g s action id p entity
  | _ => .ok (g, s)

/-- Makes an object an output of an action: an entity from which the edges go on that carry it. -/
def reifyOutput (g : Graph Node Thread) (s : Supply) (action : NodeId) (id : ObjectId)
    (p : Candidate) : Except GraphError (Graph Node Thread × Supply) := do
  let (entity, s) := s.node
  let (link, s) := s.edge
  let g ← g.insertAfter action entity (.entity (.ofProfile p.profile)) (link, ⟨id, none⟩)
    fun e => e.data.id = id
  attachPins g s action entity id p.pins

def reifyAll (reify : Graph Node Thread → Supply → ObjectId → Candidate →
    Except GraphError (Graph Node Thread × Supply)) (g : Graph Node Thread) (s : Supply)
    (t : Candidates) : Except GraphError (Graph Node Thread × Supply) :=
  t.foldlM (fun (g, s) e => reify g s e.1 e.2) (g, s)

/-- Turns what an action takes in and gives out into entities. -/
def reifyAction (d : Draft) (g : Graph Node Thread) (s : Supply) (action : NodeId) :
    Except GraphError (Graph Node Thread × Supply) := do
  let inputs := d.gather (fun p e => p.addSource e.source)
    ((Table.at? d.inputs action).getD []) (g.inEdges action)
  let (g, s) ← reifyAll (fun g s => reifyInput g s action) g s inputs
  let outputs := d.gather (fun p _ => p) ((Table.at? d.outputs action).getD []) (g.outEdges action)
  reifyAll (fun g s => reifyOutput g s action) g s outputs

/--
Visits the actions in topological order, so that an object is an entity before it is taken in.
-/
def reify (d : Draft) (s : Supply) : Except AnnotateError (Graph Node Thread × Supply) := do
  let order ← d.graph.topologicalOrder.mapError .graph
  (order.foldlM (fun (g, s) action => d.reifyAction g s action) (d.graph, s)).mapError .graph

end Draft

end ObjectFlow.Annotated
