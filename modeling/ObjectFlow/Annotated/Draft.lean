import ObjectFlow.Annotated.Node
import ObjectFlow.Flow.Basic

/-!
# From calls to actions

The first draft of an annotated graph has an action for every call, and one for each of the two
markers. Its edges still run from action to action, each with one object.
-/

namespace ObjectFlow

inductive AnnotateError where
  /-- A call has a body, which ought to stand in its place. -/
  | nestedCall (call : NodeId)
  | graph (cause : GraphError)
deriving DecidableEq, Repr

def AnnotateError.message : AnnotateError → String
  | .nestedCall call => "call node " ++ call.label ++ " has a nested graph; flatten the trace first"
  | .graph cause => cause.message

namespace Annotated

/-- An object along an edge, and the pin that it goes through. -/
structure Thread where
  id : ObjectId
  pin : Option String := none
deriving DecidableEq, Repr

/--
An object that is to become an entity, with the pins of the action and the entities that it comes
from.
-/
structure Candidate where
  profile : Profile
  pins : List String := []
  sources : List NodeId := []

abbrev Candidates := Table ObjectId Candidate

structure Draft where
  graph : Graph Node Thread := {}
  /-- The two markers, which are never collapsed. -/
  markers : List NodeId
  /-- What the flow graph says about the objects along its edges. -/
  objects : Table ObjectId Profile := []
  /-- What the pins of every call with a note take in and give out. -/
  inputs : Table NodeId Candidates := []
  outputs : Table NodeId Candidates := []

namespace Draft

def sourceLabel : String := "__source__"

def sinkLabel : String := "__sink__"

def profile (d : Draft) (id : ObjectId) : Profile := (Table.at? d.objects id).getD { id := some id }

/-- Adds the object of a pin to a table; pins of one object share an entry. -/
def addPin (s : Supply) (t : Candidates) (name : String) (p : Flow.Pin) : Candidates × Supply :=
  let (id, s) := match p.id with
    | some id => (id, s)
    | none => s.object
  let candidate := (Table.at? t id).getD ⟨{ p.profile with id := some id }, [], []⟩
  (Table.put t id { candidate with pins := candidate.pins ++ [p.argument.getD name] }, s)

/-- The objects of the pins on one side that have a place in the call's note. -/
def candidates (s : Supply) (side : Side) (t : Candidates) :
    List (String × Flow.Pin) → Candidates × Supply
  | [] => (t, s)
  | (name, p) :: rest =>
    if p.side = side && p.position.isSome then
      let (t, s) := addPin s t name p
      candidates s side t rest
    else candidates s side t rest

def addAction (d : Draft) (id : NodeId) (a : Action) : Except AnnotateError Draft := do
  let g ← (d.graph.addNode id (.action a)).mapError .graph
  return { d with graph := g }

def addCall (d : Draft) (s : Supply) (id : NodeId) (c : Flow.Call) :
    Except AnnotateError (Draft × Supply) := do
  if c.body.isSome then .error (.nestedCall id)
  let d ← d.addAction id (.ofNote c.note)
  if c.note.isNone then return (d, s)
  let (inputs, s) := candidates s .input [] c.pins
  let (outputs, s) := candidates s .output [] c.pins
  return ({ d with
    inputs := Table.put d.inputs id inputs, outputs := Table.put d.outputs id outputs }, s)

def addNodes (d : Draft) (s : Supply) :
    List (NodeId × Flow.Node) → Except AnnotateError (Draft × Supply)
  | [] => .ok (d, s)
  | (id, .input) :: rest => do
    let d ← d.addAction id { label := sourceLabel }
    addNodes d s rest
  | (id, .output) :: rest => do
    let d ← d.addAction id { label := sinkLabel }
    addNodes d s rest
  | (id, .call c) :: rest => do
    let (d, s) ← d.addCall s id c
    addNodes d s rest

/-- Whether a node is a call with a note. -/
def isNoted (f : Flow) (id : NodeId) : Bool :=
  match f.graph.node? id with
  | some (.call c) => c.note.isSome
  | _ => false

/-- The objects that come from outside and that some call with a note takes. -/
def wanted (f : Flow) : List ObjectId :=
  ((f.graph.outEdges f.input).filter fun e => isNoted f e.target).filterMap fun e =>
    e.data.object.id

/--
What comes from outside counts where a call with a note takes it, and what is left where one
produced it.
-/
def counts (f : Flow) (e : Edge Flow.Link) : Bool :=
  if e.source = f.input then
    match e.data.object.id with
    | some id => (wanted f).contains id
    | none => isNoted f e.target
  else if e.target = f.output then isNoted f e.source
  else true

def addEdges (d : Draft) (s : Supply) :
    List (Edge Flow.Link) → Except AnnotateError (Draft × Supply)
  | [] => .ok (d, s)
  | e :: rest => do
    let (id, s) := match e.data.object.id with
      | some id => (id, s)
      | none => s.object
    let known : Profile :=
      { id := some id, note := e.data.object.note, value := e.data.object.value }
    let objects := if Table.holds d.objects id then d.objects else Table.put d.objects id known
    let g ← (d.graph.addEdge ⟨e.id, e.source, e.target, ⟨id, none⟩⟩).mapError .graph
    addEdges { d with graph := g, objects := objects } s rest

/-- The actions of a flat flow graph, with the edges that count. -/
def ofFlow (f : Flow) (s : Supply) : Except AnnotateError (Draft × Supply) := do
  let (d, s) ← addNodes { markers := [f.input, f.output] } s f.graph.nodes
  d.addEdges s (f.graph.edges.filter (counts f))

end Draft

end Annotated

end ObjectFlow
