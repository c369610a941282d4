import ObjectFlow.Graph.Search
import ObjectFlow.Semantic.Aspects

/-!
# Merging entities

When an entity is merged into another one, its edges move there. Where both have an entity under one
aspect, those two are merged as well. Objects that contain themselves can keep this going for ever,
so that mergers have a course: it ends with a result or with an error, or mergers lie inside each
other more deeply than they may.
-/

namespace ObjectFlow.Semantic

/-- What becomes of mergers; nothing where they go too deep. -/
abbrev Course := ExceptT GraphError Option

/-- A course that ends at once. -/
def Course.ofExcept {α : Type} (r : Except GraphError α) : Course α := ExceptT.mk (some r)

/-- More mergers inside each other than any stack can hold, and more steps than anyone awaits. -/
def deepest : Nat := 4294967296

/-- A graph in which nodes are being merged, and where each of those went. -/
structure Merging where
  graph : SemanticGraph
  forwarded : Table NodeId NodeId := []
  supply : Supply

namespace Merging

/-- Follows a node to where it went, in so many steps at most. -/
def follow (forwarded : Table NodeId NodeId) : Nat → NodeId → Option NodeId
  | steps, id =>
    match Table.at? forwarded id, steps with
    | none, _ => some id
    | some _, 0 => none
    | some next, steps + 1 => follow forwarded steps next

/-- The node that stands for a node now. Where nodes went round a circle the search goes on. -/
def resolve (m : Merging) (id : NodeId) : Course NodeId :=
  ExceptT.lift (follow m.forwarded (deepest + m.forwarded.length) id)

def addEdge (m : Merging) (source target : NodeId) (l : Link) : Course Merging := do
  let (id, supply) := m.supply.edge
  let g ← Course.ofExcept (m.graph.addEdge ⟨id, source, target, l⟩)
  return { m with graph := g, supply := supply }

/-- Gives a node the type that it has together with another one. -/
def joinTypes (o : Ontology) (m : Merging) (src dest : Node) (id : NodeId) : Merging :=
  let type := jointType o src.type dest.type dest.root.label
  { m with graph := m.graph.adjustNode id fun n => { n with type := type } }

/-- The entities under the aspects of a node; of several the last. -/
def aspectTargets (g : SemanticGraph) (id : NodeId) : Table String NodeId :=
  Table.ofEntries ((g.outEdges id).filterMap fun e => e.data.aspect.map fun a => (a, e.target))

/-- What is left of the first node of a merger when its edges have moved. -/
def retire (m : Merging) (src dest : NodeId) : Merging :=
  { m with graph := m.graph.removeNode src, forwarded := Table.put m.forwarded src dest }

/--
Merges one node into another. An edge that leaves the merged node moves, or its target is merged
with the entity that is there under its aspect.
-/
def merge (o : Ontology) : (depth : Nat) → (src dest : NodeId) → Merging → Course Merging
  | 0, _, _, _ => ExceptT.mk none
  | depth + 1, src, dest, m => do
    let src ← m.resolve src
    let dest ← m.resolve dest
    if src = dest then return m
    match m.graph.node? src, m.graph.node? dest with
    | some srcNode, some destNode => do
      let m := m.joinTypes o srcNode destNode dest
      let m ← ((m.graph.inEdges src).filter fun e => e.source ≠ dest).foldlM
        (fun (m : Merging) e => m.addEdge e.source dest e.data) m
      let aspects := aspectTargets m.graph dest
      let m ← ((m.graph.outEdges src).filter fun e => e.target ≠ dest).foldlM
        (fun (m : Merging) e => do
          let target ← m.resolve e.target
          if target = dest || !m.graph.hasNode target then return m
          match e.data.aspect.bind (Table.at? aspects) with
          | some existing => merge o depth target existing m
          | none => m.addEdge dest target e.data) m
      return m.retire src dest
    | _, _ => return m

end Merging

variable (o : Ontology) (depth : Nat)

def mergeInto (g : SemanticGraph) (s : Supply) (src dest : NodeId) :
    Course (SemanticGraph × Supply) := do
  let m ← Merging.merge o depth src dest { graph := g, supply := s }
  return (m.graph, m.supply)

/-- The inputs of an action by their aspects, and its outputs; of several the last. -/
def filled (g : SemanticGraph) (action : NodeId) (side : Side) : Table String (Edge Link) :=
  Table.ofEntries ((g.outEdges action).filterMap fun e =>
    if e.data.role = some side then e.data.aspect.map fun a => (a, e) else none)

/-- Merges an input with the output of the same aspect, if no other node leads to the input. -/
def mergeFilled (outputs : Table String (Edge Link)) (g : SemanticGraph) (s : Supply)
    (aspect : String) (input : Edge Link) : Course (SemanticGraph × Supply) :=
  match Table.at? outputs aspect with
  | none => return (g, s)
  | some output =>
    if input.target = output.target || !g.hasNode input.target || !g.hasNode output.target
      || (g.predecessors input.target).length ≠ 1 then return (g, s)
    else mergeInto o depth (g.removeEdge input.id) s input.target output.target

def mergeFilledOf (g : SemanticGraph) (s : Supply) (action : NodeId) :
    Course (SemanticGraph × Supply) :=
  let outputs := filled g action .output
  (filled g action .input).foldlM (fun (g, s) i => mergeFilled o depth outputs g s i.1 i.2) (g, s)

/-- Merges the inputs and outputs of actions that fill the same aspect. -/
def mergeDuplicates (g : SemanticGraph) (s : Supply) : Course (SemanticGraph × Supply) :=
  (g.nodesWhere Node.isAction).foldlM (fun (g, s) action => mergeFilledOf o depth g s action) (g, s)

/--
The nearest other entity with the same object that aspects lead to from an action, starting from its
inputs or from its outputs.
-/
def sameObject? (g : SemanticGraph) (action entity : NodeId) (side : Side) : Option NodeId := do
  let node ← g.node? entity
  let id ← node.id
  let isSame (n : NodeId) : Bool := n ≠ entity && (g.node? n).any fun m => m.id == some id
  let r := g.search action .forward
    (fun n _ => if isSame n then Verdict.stop n else .expand)
    (fun e => (e.source ≠ action || e.data.role == some side) && e.data.aspect.isSome)
  r.found

/-- Merges an entity without an aspect into the one that is the same object. -/
def mergeStranger (action : NodeId) (g : SemanticGraph) (s : Supply) (e : Edge Link) :
    Course (SemanticGraph × Supply) :=
  match e.data.role with
  | none => return (g, s)
  | some side =>
    if !g.hasEdge e.id || !g.hasNode e.target then return (g, s)
    else
      match sameObject? g action e.target side with
      | none => return (g, s)
      | some found => mergeInto o depth (g.removeEdge e.id) s e.target found

def mergeStrangersOf (g : SemanticGraph) (s : Supply) (action : NodeId) :
    Course (SemanticGraph × Supply) :=
  ((g.outEdges action).filter fun e => e.data.aspect.isNone).foldlM
    (fun (g, s) e => mergeStranger o depth action g s e) (g, s)

/-- Merges entities that are attached to actions without an aspect. -/
def mergeStrangers (g : SemanticGraph) (s : Supply) : Course (SemanticGraph × Supply) :=
  (g.nodesWhere Node.isAction).foldlM
    (fun (g, s) action => mergeStrangersOf o depth g s action) (g, s)

end ObjectFlow.Semantic
