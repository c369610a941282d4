import ObjectFlow.Graph.Rewire

/-!
# Graphs by reference to numbered elements

The graph as it is stored: the elements are kept in a graph library under numbers, and two tables,
in the order of insertion, lead from the identities to the numbers. The library chooses the number
of a new element, and may choose one that an element had which was removed. `Command` lists what can
be done to such a graph and to one that is given by the lists of its nodes and edges, and `History`
is a course of such commands from the empty graph.
-/

namespace ObjectFlow

/-- An edge between two numbered nodes. -/
structure Arc (W : Type) where
  source : Nat
  target : Nat
  weight : W
deriving DecidableEq, Repr

/-- Nodes with weights in `V` and edges with weights in `W`, under numbers. -/
class Slots (S : Type → Type → Type) where
  empty {V W : Type} : S V W
  node? {V W : Type} : S V W → Nat → Option V
  edge? {V W : Type} : S V W → Nat → Option (Arc W)
  /-- The edges out of a node. -/
  outgoing {V W : Type} : S V W → Nat → List Nat
  /-- The edges into a node. -/
  incoming {V W : Type} : S V W → Nat → List Nat
  addNode {V W : Type} : S V W → V → Nat × S V W
  addEdge {V W : Type} : S V W → Arc W → Nat × S V W
  /-- Removes a node and its edges. -/
  removeNode {V W : Type} : S V W → Nat → S V W
  removeEdge {V W : Type} : S V W → Nat → S V W
  adjustNode {V W : Type} : S V W → Nat → (V → V) → S V W
  adjustEdge {V W : Type} : S V W → Nat → (W → W) → S V W

/-- Elements with their identities, and where they are found. -/
structure Indexed (S : Type → Type → Type) (N E : Type) where
  inner : S (NodeId × N) (EdgeId × E)
  nodes : Table NodeId Nat
  edges : Table EdgeId Nat
  metadata : Table String Json

namespace Indexed

variable {S : Type → Type → Type} {N E : Type}

/-- A change that was refused half-way, with the graph as it was left. -/
structure Stopped (S : Type → Type → Type) (N E : Type) where
  cause : GraphError
  graph : Indexed S N E

variable [Slots S]

def empty (metadata : Table String Json) : Indexed S N E := ⟨Slots.empty, [], [], metadata⟩

/-! ## Queries -/

def nodeIds (x : Indexed S N E) : List NodeId := x.nodes.map Prod.fst

def hasNode (x : Indexed S N E) (id : NodeId) : Bool := Table.holds x.nodes id

def node? (x : Indexed S N E) (id : NodeId) : Option N := do
  let i ← Table.at? x.nodes id
  (Slots.node? x.inner i).map Prod.snd

def nodeList (x : Indexed S N E) : Table NodeId N :=
  x.nodes.filterMap fun n => (Slots.node? x.inner n.2).map fun slot => (n.1, slot.2)

def nodesWhere (x : Indexed S N E) (p : N → Bool) : List NodeId :=
  (x.nodeList.filter fun n => p n.2).map Prod.fst

def hasEdge (x : Indexed S N E) (id : EdgeId) : Bool := Table.holds x.edges id

/-- The identity of the node under a number. -/
def nameOf (x : Indexed S N E) (i : Nat) : Option NodeId := (Slots.node? x.inner i).map Prod.fst

/-- The edge under a number. -/
def view (x : Indexed S N E) (k : Nat) : Option (Edge E) := do
  let arc ← Slots.edge? x.inner k
  let source ← x.nameOf arc.source
  let target ← x.nameOf arc.target
  return ⟨arc.weight.1, source, target, arc.weight.2⟩

def edge? (x : Indexed S N E) (id : EdgeId) : Option (Edge E) := (Table.at? x.edges id).bind x.view

def edgeList (x : Indexed S N E) : List (Edge E) := x.edges.filterMap fun e => x.view e.2

/-- Where an edge stands in the order of insertion. -/
def position (x : Indexed S N E) (id : EdgeId) : Option Nat := x.edges.findIdx? fun e => e.1 = id

/-- Whether one edge stands no later than another; one that does not stand anywhere goes first. -/
def standsBy (x : Indexed S N E) (e e' : Edge E) : Bool :=
  match x.position e.id, x.position e'.id with
  | none, _ => true
  | some _, none => false
  | some p, some q => p ≤ q

/-- Edges found by their numbers, put in the order of insertion. -/
def arranged (x : Indexed S N E) (numbers : List Nat) : List (Edge E) :=
  (numbers.filterMap x.view).mergeSort x.standsBy

/-- The edges that a node's number leads to, on one of its sides. -/
def directed (x : Indexed S N E) (side : S (NodeId × N) (EdgeId × E) → Nat → List Nat)
    (id : NodeId) : List (Edge E) :=
  match Table.at? x.nodes id with
  | none => []
  | some i => x.arranged (side x.inner i)

def outEdges (x : Indexed S N E) (id : NodeId) : List (Edge E) := x.directed Slots.outgoing id

def inEdges (x : Indexed S N E) (id : NodeId) : List (Edge E) := x.directed Slots.incoming id

def between (x : Indexed S N E) (source target : NodeId) : List (Edge E) :=
  (x.outEdges source).filter fun e => e.target = target

def outDegree (x : Indexed S N E) (id : NodeId) : Nat := (x.outEdges id).length

def inDegree (x : Indexed S N E) (id : NodeId) : Nat := (x.inEdges id).length

def successors (x : Indexed S N E) (id : NodeId) : List NodeId :=
  ((x.outEdges id).map Edge.target).eraseDups

def predecessors (x : Indexed S N E) (id : NodeId) : List NodeId :=
  ((x.inEdges id).map Edge.source).eraseDups

/-! ## Single changes -/

/-- Adds a node without a look at the table. -/
def insertNode (x : Indexed S N E) (id : NodeId) (data : N) : Indexed S N E :=
  let placed := Slots.addNode x.inner (id, data)
  { x with inner := placed.2, nodes := Table.put x.nodes id placed.1 }

def addNode (x : Indexed S N E) (id : NodeId) (data : N) :
    Except (Stopped S N E) (Indexed S N E) :=
  if x.hasNode id then .error ⟨.duplicateNode id, x⟩ else .ok (x.insertNode id data)

/-- Removes a node; the edges at it are taken out of the table before the library drops them. -/
def removeNode (x : Indexed S N E) (id : NodeId) : Option N × Indexed S N E :=
  match Table.at? x.nodes id with
  | none => (none, x)
  | some i =>
    let incident := (Slots.outgoing x.inner i ++ Slots.incoming x.inner i).filterMap fun k =>
      (Slots.edge? x.inner k).map fun arc => arc.weight.1
    ((Slots.node? x.inner i).map Prod.snd,
      { x with
        inner := Slots.removeNode x.inner i
        nodes := Table.without x.nodes id
        edges := incident.foldl Table.without x.edges })

/-- Adds an edge between numbered nodes. -/
def insertEdge (x : Indexed S N E) (id : EdgeId) (source target : Nat) (data : E) :
    Indexed S N E :=
  let placed := Slots.addEdge x.inner ⟨source, target, (id, data)⟩
  { x with inner := placed.2, edges := Table.put x.edges id placed.1 }

def addEdge (x : Indexed S N E) (e : Edge E) : Except (Stopped S N E) (Indexed S N E) :=
  if x.hasEdge e.id then .error ⟨.duplicateEdge e.id, x⟩
  else
    match Table.at? x.nodes e.source with
    | none => .error ⟨.nodeNotFound e.source, x⟩
    | some s =>
      match Table.at? x.nodes e.target with
      | none => .error ⟨.nodeNotFound e.target, x⟩
      | some t => .ok (x.insertEdge e.id s t e.data)

def removeEdge (x : Indexed S N E) (id : EdgeId) : Option E × Indexed S N E :=
  match Table.at? x.edges id with
  | none => (none, x)
  | some k =>
    ((Slots.edge? x.inner k).map fun arc => arc.weight.2,
      { x with inner := Slots.removeEdge x.inner k, edges := Table.without x.edges id })

def adjustNode (x : Indexed S N E) (id : NodeId) (f : N → N) : Indexed S N E :=
  match Table.at? x.nodes id with
  | none => x
  | some i => { x with inner := Slots.adjustNode x.inner i fun slot => (slot.1, f slot.2) }

def adjustEdge (x : Indexed S N E) (id : EdgeId) (f : E → E) : Indexed S N E :=
  match Table.at? x.edges id with
  | none => x
  | some k => { x with inner := Slots.adjustEdge x.inner k fun slot => (slot.1, f slot.2) }

/-- Adds the copy of an edge; there is no graph if an end was not copied. -/
def copyEdge (x : Indexed S N E) (e : Edge E) : Option (Indexed S N E) := do
  let s ← Table.at? x.nodes e.source
  let t ← Table.at? x.nodes e.target
  return x.insertEdge e.id s t e.data

/-- The same nodes and edges with other data, in a graph of its own. -/
def mapData {N' E' : Type} (x : Indexed S N E) (onNode : NodeId → N → N') (onEdge : Edge E → E') :
    Option (Indexed S N' E') :=
  let copied := x.nodeList.foldl (fun y n => y.insertNode n.1 (onNode n.1 n.2)) (empty x.metadata)
  (x.edgeList.map fun e => ⟨e.id, e.source, e.target, onEdge e⟩).foldlM copyEdge copied

/-! ## Composite changes -/

def boundary (x : Indexed S N E) (members : List NodeId) (hub : NodeId) : List (Edge E) :=
  members.flatMap fun m =>
    let into := (x.inEdges m).filter fun e => !members.contains e.source
    let out := (x.outEdges m).filter fun e => !members.contains e.target
    into.map (fun e => { e with target := hub }) ++ out.map fun e => { e with source := hub }

def contract (x : Indexed S N E) (members : List NodeId) (hub : NodeId) (data : N) :
    Except (Stopped S N E) (Indexed S N E) :=
  if x.hasNode hub then .error ⟨.duplicateNode hub, x⟩
  else
    match members.find? fun m => !x.hasNode m with
    | some m => .error ⟨.nodeNotFound m, x⟩
    | none => do
      let y ← x.addNode hub data
      (x.boundary members hub).foldlM addEdge (members.foldl (fun y m => (y.removeNode m).2) y)

/-- Moves edges, one by one to the end of the order. -/
def moveEdges (x : Indexed S N E) (moved : List (Edge E)) :
    Except (Stopped S N E) (Indexed S N E) :=
  moved.foldlM (fun x e => (x.removeEdge e.id).2.addEdge e) x

def insertBefore (x : Indexed S N E) (id hub : NodeId) (data : N) (link : EdgeId × E)
    (select : Edge E → Bool) : Except (Stopped S N E) (Indexed S N E) := do
  if !x.hasNode id then .error ⟨.nodeNotFound id, x⟩
  let moved := (x.inEdges id).filter select
  let x ← x.addNode hub data
  let x ← x.moveEdges (moved.map fun e => { e with target := hub })
  x.addEdge ⟨link.1, hub, id, link.2⟩

def insertAfter (x : Indexed S N E) (id hub : NodeId) (data : N) (link : EdgeId × E)
    (select : Edge E → Bool) : Except (Stopped S N E) (Indexed S N E) := do
  if !x.hasNode id then .error ⟨.nodeNotFound id, x⟩
  let moved := (x.outEdges id).filter select
  let x ← x.addNode hub data
  let x ← x.moveEdges (moved.map fun e => { e with source := hub })
  x.addEdge ⟨link.1, id, hub, link.2⟩

def superfluous (x : Indexed S N E) (id : NodeId) : List EdgeId :=
  (Graph.repeated Edge.source (x.inEdges id) [] ++
    Graph.repeated Edge.target (x.outEdges id) []).eraseReps

/-- Keeps the first edge from and to each neighbour of a node, and counts the others. -/
def thin (x : Indexed S N E) (id : NodeId) : Nat × Indexed S N E :=
  let doomed := x.superfluous id
  (doomed.length, doomed.foldl (fun x e => (x.removeEdge e).2) x)

end Indexed

/-! ## Courses of commands -/

namespace Graph

/-- What can be done to a graph. -/
inductive Command (N E : Type) where
  /-- Adds a node under an identity that was made for it. -/
  | newNode (id : NodeId) (data : N)
  | addNode (id : NodeId) (data : N)
  | removeNode (id : NodeId)
  | addEdge (e : Edge E)
  | removeEdge (id : EdgeId)
  | adjustNode (id : NodeId) (f : N → N)
  | adjustEdge (id : EdgeId) (f : E → E)
  | contract (members : List NodeId) (hub : NodeId) (data : N)
  | insertBefore (id hub : NodeId) (data : N) (link : EdgeId × E) (select : Edge E → Bool)
  | insertAfter (id hub : NodeId) (data : N) (link : EdgeId × E) (select : Edge E → Bool)
  | thin (id : NodeId)

/-- What a command says; a node or an edge is the one that was removed or changed, as it was. -/
inductive Answer (N E : Type) where
  | done
  | refused (cause : GraphError)
  | node (data : Option N)
  | edge (data : Option E)
  | count (n : Nat)

/-- A course of commands, with copies under other data in between. -/
inductive History : Type → Type → Type 1 where
  | start {N E : Type} : History N E
  | next {N E : Type} (h : History N E) (c : Command N E) : History N E
  | copy {N E N' E' : Type} (h : History N E) (onNode : NodeId → N → N') (onEdge : Edge E → E') :
    History N' E'

variable {N E : Type}

/-- The answer to a change that happens as a whole or not at all. -/
def settle (g : Graph N E) : Except GraphError (Graph N E) → Answer N E × Graph N E
  | .ok g' => (.done, g')
  | .error cause => (.refused cause, g)

def apply (g : Graph N E) : Command N E → Answer N E × Graph N E
  | .newNode id data => (.done, g.attachNode id data)
  | .addNode id data => g.settle (g.addNode id data)
  | .removeNode id => (.node (g.node? id), g.removeNode id)
  | .addEdge e => g.settle (g.addEdge e)
  | .removeEdge id => (.edge ((g.edge? id).map Edge.data), g.removeEdge id)
  | .adjustNode id f => (.node (g.node? id), g.adjustNode id f)
  | .adjustEdge id f => (.edge ((g.edge? id).map Edge.data), g.adjustEdge id f)
  | .contract members hub data =>
    match g.contract members hub data with
    | .ok g' => (.done, g')
    | .error stopped => (.refused stopped.cause, stopped.graph)
  | .insertBefore id hub data link select => g.settle (g.insertBefore id hub data link select)
  | .insertAfter id hub data link select => g.settle (g.insertAfter id hub data link select)
  | .thin id => (.count (g.thin id).1, (g.thin id).2)

/-- The graph as the lists of its nodes and edges. -/
def History.plain {N E : Type} : History N E → Graph N E
  | .start => {}
  | .next h c => (h.plain.apply c).2
  | .copy h onNode onEdge => h.plain.mapData onNode onEdge

end Graph

namespace Indexed

variable {S : Type → Type → Type} [Slots S] {N E : Type}

def settle : Except (Stopped S N E) (Indexed S N E) → Graph.Answer N E × Indexed S N E
  | .ok x => (.done, x)
  | .error stopped => (.refused stopped.cause, stopped.graph)

def apply (x : Indexed S N E) : Graph.Command N E → Graph.Answer N E × Indexed S N E
  | .newNode id data => (.done, x.insertNode id data)
  | .addNode id data => settle (x.addNode id data)
  | .removeNode id => (.node (x.removeNode id).1, (x.removeNode id).2)
  | .addEdge e => settle (x.addEdge e)
  | .removeEdge id => (.edge (x.removeEdge id).1, (x.removeEdge id).2)
  | .adjustNode id f => (.node (x.node? id), x.adjustNode id f)
  | .adjustEdge id f => (.edge ((x.edge? id).map Edge.data), x.adjustEdge id f)
  | .contract members hub data => settle (x.contract members hub data)
  | .insertBefore id hub data link select => settle (x.insertBefore id hub data link select)
  | .insertAfter id hub data link select => settle (x.insertAfter id hub data link select)
  | .thin id => (.count (x.thin id).1, (x.thin id).2)

end Indexed

/-- The graph as it is stored; there is none if a copy failed. -/
def Graph.History.stored (S : Type → Type → Type) [Slots S] {N E : Type} :
    Graph.History N E → Option (Indexed S N E)
  | .start => some (.empty [])
  | .next h c => (h.stored S).map fun x => (x.apply c).2
  | .copy h onNode onEdge => (h.stored S).bind fun x => x.mapData onNode onEdge

end ObjectFlow
