import ObjectFlow.Flow.Exchange
import ObjectFlow.Flow.Recording

/-!
# A recording in progress

Every scope knows which call produced each object last. A call whose body is traced opens a scope of
its own; all others take place in the scope of the call around them.
-/

namespace ObjectFlow

/-- The call and pin that an object came from last, and the edge that says so. -/
structure Producer where
  node : NodeId
  pin : String
  edge : EdgeId
deriving DecidableEq, Repr

structure Scope where
  graph : Handle
  producers : Table ObjectId Producer := []

/-- A call that has begun and not ended. -/
structure Frame where
  event : Invocation
  node : NodeId
  /-- The scope of the body, where that is traced. -/
  scope : Option Scope

structure Tape where
  recording : Recording
  root : Scope
  /-- The open calls, innermost first. -/
  stack : List Frame
  supply : Supply

namespace Tape

def empty (s : Supply) : Tape :=
  let (recording, s) := Recording.empty s
  ⟨recording, ⟨recording.root, []⟩, [], s⟩

/-- The innermost open scope. -/
def scope (t : Tape) : Scope := (t.stack.findSome? Frame.scope).getD t.root

/-- Changes the innermost scope of a stack, if one of its calls has opened one. -/
def adjustInnermost (f : Scope → Scope) : List Frame → Option (List Frame)
  | [] => none
  | frame :: rest =>
    match frame.scope with
    | some s => some ({ frame with scope := some (f s) } :: rest)
    | none => (adjustInnermost f rest).map fun rest => frame :: rest

def adjustScope (t : Tape) (f : Scope → Scope) : Tape :=
  match adjustInnermost f t.stack with
  | some stack => { t with stack := stack }
  | none => { t with root := f t.root }

/-- The graph of the innermost scope. -/
def flow (t : Tape) : Except FlowError Flow :=
  match t.recording.graph? t.scope.graph with
  | some flow => .ok flow
  | none => .error (.invalid (.scopeMissing t.scope.graph))

def setFlow (t : Tape) (flow : Flow) : Tape :=
  { t with recording := t.recording.set t.scope.graph flow }

/-- Changes a call of the innermost scope. -/
def adjustCall (t : Tape) (node : NodeId) (f : Flow.Call → Flow.Call) : Except FlowError Tape := do
  let flow ← t.flow
  match flow.graph.node? node with
  | some (.call _) => return t.setFlow (flow.adjustCall node f)
  | _ => .error (.invalid (.callMissing node))

def addEdge (t : Tape) (source target : NodeId) (link : Flow.Link) :
    Except FlowError (EdgeId × Tape) := do
  let flow ← t.flow
  let (id, supply) := t.supply.edge
  let g ← (flow.graph.addEdge ⟨id, source, target, link⟩).mapError .graph
  return (id, { t with supply := supply }.setFlow { flow with graph := g })

/--
The receiver of an initializer that nothing produced yet comes out of the call and does not go in.
-/
def isNewborn (c : Invocation) (argument : String) : Bool :=
  argument = "self" && c.name = "__init__"

/-- Leads an object into a call, from its producer or else from outside of the scope. -/
def arrive (c : Invocation) (node : NodeId) (t : Tape) (a : Flow.Arrival) :
    Except FlowError Tape := do
  let link (pin : Option String) : Flow.Link := ⟨a.reference, pin, some a.argument⟩
  match Table.at? t.scope.producers a.object with
  | some p => (t.addEdge p.node node (link (some p.pin))).map Prod.snd
  | none =>
    if isNewborn c a.argument then return t
    let flow ← t.flow
    (t.addEdge flow.input node (link none)).map Prod.snd

/-- Opens the graph of a body, unless the call is atomic. -/
def openBody (t : Tape) (c : Invocation) : Option Handle × Tape :=
  if c.atomic then (none, t)
  else
    let (flow, supply) := Flow.empty t.supply
    let (h, recording) := t.recording.push flow
    (some h, { t with recording := recording, supply := supply })

/-- Records that a call begins. -/
def enter (t : Tape) (c : Invocation) (e : Flow.Entrance) : Except FlowError Tape := do
  let (body, t) := t.openBody c
  let flow ← t.flow
  let (node, supply) := t.supply.node
  let call : Flow.Call :=
    ⟨c.function.module, c.function.qualifiedName, e.pins, none, e.note, body⟩
  let g ← (flow.graph.addNode node (.call call)).mapError .graph
  let t := { t with supply := supply }.setFlow { flow with graph := g }
  let t ← e.arrivals.foldlM (arrive c node) t
  return { t with stack := ⟨c, node, body.map fun h => ⟨h, []⟩⟩ :: t.stack }

/-- Takes the innermost call off the stack, also where the return is not its own. -/
def pop (t : Tape) (r : Completion) : Except FlowError NodeId × Tape :=
  match t.stack with
  | [] => (.error (.mismatch none r.call.fullName), t)
  | frame :: rest =>
    let t := { t with stack := rest }
    if frame.event.fullName = r.call.fullName then (.ok frame.node, t)
    else (.error (.mismatch (some frame.event.fullName) r.call.fullName), t)

/-- Removes a call and all edges at it. -/
def drop (t : Tape) (node : NodeId) : Except FlowError Tape := do
  let flow ← t.flow
  return t.setFlow { flow with graph := flow.graph.removeNode node }

/-- Makes a call the producer of an object, in the place of any other one. -/
def produce (node : NodeId) (t : Tape) (p : Flow.Production) : Except FlowError Tape := do
  let flow ← t.flow
  let t := match Table.at? t.scope.producers p.object with
    | some old => t.setFlow { flow with graph := flow.graph.removeEdge old.edge }
    | none => t
  let (edge, t) ← t.addEdge node flow.output ⟨p.reference, some p.pin, none⟩
  let t := t.adjustScope fun s =>
    { s with producers := Table.put s.producers p.object ⟨node, p.pin, edge⟩ }
  match p.slots with
  | none => return t
  | some slots =>
    t.adjustCall node fun c =>
      { c with pins := Table.adjust (fun pin => { pin with slots := slots }) p.pin c.pins }

/-- Records that a call ends. -/
def leave (t : Tape) (node : NodeId) (d : Flow.Departure) : Except FlowError Tape := do
  let t ← t.adjustCall node fun c => { c with pins := Table.putAll c.pins d.pins }
  d.productions.foldlM (produce node) t

end Tape

end ObjectFlow
