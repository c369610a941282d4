import ObjectFlow.Annotated.Draft
import ObjectFlow.Graph.Closure
import ObjectFlow.Graph.Rewire

/-!
# Calls without a note in one

Two neighbouring actions without a note become one wherever that does not connect two actions with
notes that were not connected before. The transitive closure is kept beside the graph.
-/

namespace ObjectFlow.Annotated.Draft

/-- Whether an action may become part of another one. -/
def isCollapsible (d : Draft) (id : NodeId) : Bool :=
  !d.markers.contains id &&
    match d.graph.node? id with
    | some n => n.isPlain
    | none => false

def isNotedNode (g : Graph Node Thread) (id : NodeId) : Bool :=
  match g.node? id with
  | some n => n.isNoted
  | none => false

/--
Whether an action and one that follows it can become one. There must be no other way from the first
to the second, and whatever has a note and leads to the second must already lead to whatever has a
note and follows from the first.
-/
def isSafe (g : Graph Node Thread) (closure : Graph Unit Unit) (parent child : NodeId) : Bool :=
  let detour := (g.successors parent).any fun s => s ≠ child && closure.linked s child
  let above := (closure.predecessors child).filter (isNotedNode g)
  let below := (closure.successors parent).filter (isNotedNode g)
  !detour && above.all fun a => below.all fun b => closure.linked a b

/-- The first action with which an action can become one. -/
def partner? (d : Draft) (closure : Graph Unit Unit) (parent : NodeId) : Option NodeId :=
  if d.isCollapsible parent then
    (d.graph.successors parent).find? fun c =>
      c ≠ parent && d.isCollapsible c && isSafe d.graph closure parent c
  else none

/-- Makes the closure transitive again around a node. -/
def saturate (closure : Graph Unit Unit) (s : Supply) (id : NodeId) :
    Except GraphError (Graph Unit Unit × Supply) := do
  let ends := (closure.predecessors id).flatMap fun a => (closure.successors id).map fun b => (a, b)
  let missing := ends.filter fun e => e.1 ≠ e.2 && !closure.linked e.1 e.2
  let (edges, s) := Graph.freshEdges s missing
  let closure ← closure.addEdges edges
  return (closure, s)

theorem ne_of_partner? {d : Draft} {closure : Graph Unit Unit} {parent child : NodeId}
    (h : d.partner? closure parent = some child) : child ≠ parent := by
  unfold partner? at h
  split at h
  · have := List.find?_some h
    simp only [ne_eq, Bool.and_eq_true, decide_eq_true_eq] at this
    exact this.1.1
  · cases h

/-- Collapses the actions of a stack; one that became part of another is looked at again with it. -/
def collapseFrom (d : Draft) (closure : Graph Unit Unit) (s : Supply) :
    List NodeId → Except AnnotateError (Draft × Supply)
  | [] => .ok (d, s)
  | parent :: stack =>
    match _hp : d.partner? closure parent with
    | none => collapseFrom d closure s stack
    | some child =>
      let (merged, s) := s.node
      match _hc : d.graph.contract [parent, child] merged (.action { collapsed := true }) with
      | .error i => .error (.graph i.cause)
      | .ok g =>
        match closure.contract [parent, child] merged () with
        | .error i => .error (.graph i.cause)
        | .ok closure =>
          match saturate closure s merged with
          | .error e => .error (.graph e)
          | .ok (closure, s) => collapseFrom { d with graph := g } closure s (merged :: stack)
termination_by stack => d.graph.nodes.length + stack.length
decreasing_by
  · simp
  · have := Graph.length_contract_lt (ne_of_partner? _hp) _hc
    simp only [List.length_cons]
    omega

/-- Collapses actions from the end of the order to its beginning. -/
def collapse (d : Draft) (s : Supply) : Except AnnotateError (Draft × Supply) := do
  let (closure, s) ← (d.graph.closure s).mapError .graph
  let order ← d.graph.topologicalOrder.mapError .graph
  collapseFrom d closure s order.reverse

end ObjectFlow.Annotated.Draft
