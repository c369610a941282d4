import ObjectFlow.Semantic.Typing

/-!
# Directions and aspects

Every edge at an action leads away from it and says whether the entity at its end goes in or comes
out. An aspect that the type of the action does not have is dropped.
-/

namespace ObjectFlow.Semantic

/-- Moves an edge to the end of the order, turned round. -/
def reverseEdge (g : SemanticGraph) (e : Edge Link) : Except GraphError SemanticGraph :=
  (g.removeEdge e.id).addEdge ⟨e.id, e.target, e.source, { e.data with role := some .input }⟩

/-- What an action gives out are its outputs, and what it takes in its inputs. -/
def directAction (g : SemanticGraph) (action : NodeId) : Except GraphError SemanticGraph :=
  let g := (g.outEdges action).foldl
    (fun g e => g.adjustEdge e.id fun l => { l with role := some .output }) g
  (g.inEdges action).foldlM reverseEdge g

def direct (g : SemanticGraph) : Except GraphError SemanticGraph :=
  (g.nodesWhere Node.isAction).foldlM directAction g

/-- Drops what the type of an action neither declares nor inherits. -/
def dropUndeclared (o : Ontology) (g : SemanticGraph) (action : NodeId) : SemanticGraph :=
  match g.node? action with
  | none => g
  | some n =>
    let valid := aspectsOf o n.type
    (g.outEdges action).foldl
      (fun g e => g.adjustEdge e.id fun l =>
        { l with aspect := l.aspect.filter fun a => Table.holds valid a }) g

def validate (o : Ontology) (g : SemanticGraph) : SemanticGraph :=
  (g.nodesWhere Node.isAction).foldl (dropUndeclared o) g

/-- The slots of an entity that are aspects of its type. -/
def aspectSlots (o : Ontology) (n : Node) : List (String × Profile × Aspect) :=
  let aspects := aspectsOf o n.type
  (n.slots.getD []).filterMap fun s => (Table.at? aspects s.1).map fun a => (s.1, s.2, a)

/-- The entity of a slot. -/
def slotNode (o : Ontology) (p : Profile) (a : Aspect) (t : TypeSource) :
    Except StorageError Node × TypeSource :=
  let (r, t) := t.declared p.type p.note
  (r.map fun type =>
    ⟨match type with
      | some declared => jointType o declared a.codomain a.codomain
      | none => a.codomain,
    .entity, p.id, p.value, if p.slots.isEmpty then none else some p.slots⟩, t)

/-- A slot that becomes an entity: whose it is, its name, and the entity. -/
structure Child where
  parent : NodeId
  aspect : String
  node : Node

def child (o : Ontology) (s : NodeId × String × Profile × Aspect) (t : TypeSource) :
    Except StorageError Child × TypeSource :=
  let (r, t) := slotNode o s.2.2.1 s.2.2.2 t
  (r.map fun node => ⟨s.1, s.2.1, node⟩, t)

/-- The slots of all entities that become entities, of which a slot's own slots are none. -/
def childSlots (o : Ontology) (g : SemanticGraph) : List (NodeId × String × Profile × Aspect) :=
  g.nodes.flatMap fun n => if n.2.isEntity then (aspectSlots o n.2).map fun s => (n.1, s) else []

/-- No entity keeps its slots. -/
def clearSlots (g : SemanticGraph) : SemanticGraph :=
  { g with nodes := g.nodes.map fun n =>
      (n.1, if n.2.isEntity then { n.2 with slots := none } else n.2) }

def addChild (g : SemanticGraph) (s : Supply) (c : Child) :
    Except GraphError (SemanticGraph × Supply) := do
  let (id, s) := s.node
  let (edge, s) := s.edge
  let g ← g.addNode id c.node
  let g ← g.addEdge ⟨edge, c.parent, id, ⟨some c.aspect, none⟩⟩
  return (g, s)

def addChildren (g : SemanticGraph) (s : Supply) (cs : List Child) :
    Except GraphError (SemanticGraph × Supply) :=
  cs.foldlM (fun (g, s) c => addChild g s c) (clearSlots g, s)

end ObjectFlow.Semantic
