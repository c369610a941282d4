import ObjectFlow.Flow.Basic
import ObjectFlow.Graph.Order

/-!
# Recordings

A recording holds the graph of the outermost scope and the graphs of all traced bodies. The bodies
form a tree: each belongs to one call, and that call stands in a graph with a smaller handle.
-/

namespace ObjectFlow

/-- Why a list of graphs is no recording. -/
inductive Defect where
  | rootMissing (root : Handle)
  | markerMissing (graph : Handle)
  | cyclic (graph : Handle)
  | bodyMissing (graph body : Handle)
  | bodyBefore (graph body : Handle)
  | bodyShared (body first second : Handle)
  | bodyUsed (body : Handle)
  | rootUsed (root : Handle)
  | scopeMissing (graph : Handle)
  | callMissing (call : NodeId)
deriving DecidableEq, Repr

def Defect.reason : Defect → String
  | .rootMissing root => "root " ++ root.label ++ " out of range"
  | .markerMissing graph => graph.label ++ " is missing a boundary marker"
  | .cyclic graph => graph.label ++ " contains a cycle"
  | .bodyMissing graph body => graph.label ++ " refers to missing " ++ body.label
  | .bodyBefore graph body => graph.label ++ " refers back to " ++ body.label
  | .bodyShared body first second =>
    body.label ++ " is nested in both " ++ first.label ++ " and " ++ second.label
  | .bodyUsed body => body.label ++ " was already inlined"
  | .rootUsed root => "root " ++ root.label ++ " is nested in another graph"
  | .scopeMissing graph => "scope refers to missing " ++ graph.label
  | .callMissing call => "call node " ++ call.label ++ " is missing"

/-- What can go wrong while events are recorded and recordings are put together. -/
inductive FlowError where
  | mismatch (expected : Option String) (found : String)
  | invalid (defect : Defect)
  | graph (cause : GraphError)

def FlowError.message : FlowError → String
  | .mismatch expected found =>
    "mismatched trace events: expected return from " ++ expected.getD "<empty stack>"
      ++ ", got return from " ++ found
  | .invalid defect => "invalid trace graph: " ++ defect.reason
  | .graph cause => cause.message

structure Recording where
  graphs : List Flow
  root : Handle

namespace Recording

def graph? (r : Recording) (h : Handle) : Option Flow := r.graphs[h.index]?

def rootGraph? (r : Recording) : Option Flow := r.graph? r.root

/-- An empty outermost scope. -/
def empty (s : Supply) : Recording × Supply :=
  let (flow, s) := Flow.empty s
  (⟨[flow], ⟨0⟩⟩, s)

/-- Adds a graph behind all others. -/
def push (r : Recording) (f : Flow) : Handle × Recording :=
  (⟨r.graphs.length⟩, { r with graphs := r.graphs ++ [f] })

def set (r : Recording) (h : Handle) (f : Flow) : Recording :=
  { r with graphs := r.graphs.set h.index f }

/-- The bodies that the calls of a graph refer to, each with the call. -/
def bodies (f : Flow) : List (NodeId × Handle) :=
  f.calls.filterMap fun c => c.2.body.map fun h => (c.1, h)

/-- Whether no call of the outermost scope has a body. -/
def isFlat? (r : Recording) : Option Bool := r.rootGraph?.map fun f => (bodies f).isEmpty

/-- Notes for every body the graph that refers to it. -/
def checkBodies (r : Recording) (this : Handle) :
    Table Handle Handle → List Handle → Except Defect (Table Handle Handle)
  | parents, [] => .ok parents
  | parents, body :: rest =>
    if (r.graph? body).isNone then .error (.bodyMissing this body)
    else if body = r.root || body.index ≤ this.index then .error (.bodyBefore this body)
    else
      match Table.at? parents body with
      | some other => .error (.bodyShared body other this)
      | none => checkBodies r this (Table.put parents body this) rest

def checkGraphs (r : Recording) : Nat → Table Handle Handle → List Flow → Except Defect Unit
  | _, _, [] => .ok ()
  | index, parents, f :: rest =>
    if !f.graph.hasNode f.input || !f.graph.hasNode f.output then .error (.markerMissing ⟨index⟩)
    else if !f.graph.isAcyclic then .error (.cyclic ⟨index⟩)
    else do
      let parents ← checkBodies r ⟨index⟩ parents ((bodies f).map Prod.snd)
      checkGraphs r (index + 1) parents rest

/-- The first defect, looking through the graphs by their handles and through each by its calls. -/
def check (r : Recording) : Except Defect Unit :=
  if r.rootGraph?.isNone then .error (.rootMissing r.root) else checkGraphs r 0 [] r.graphs

def validate (r : Recording) : Except FlowError Unit := r.check.mapError .invalid

end Recording

end ObjectFlow
