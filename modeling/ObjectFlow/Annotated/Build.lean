import ObjectFlow.Annotated.Collapse
import ObjectFlow.Annotated.Reify

/-!
# Annotated graphs of flow graphs

A draft is collapsed, its objects become entities, and what is left without a part is trimmed away:
the two markers, actions without a note that take nothing in or give nothing out, entities that are
then stranded, and parallel edges around actions without a note.
-/

namespace ObjectFlow

namespace Annotated

/-- Removes all nodes that satisfy a condition on the graph as it is before. -/
def prune (g : Graph Node Thread) (doomed : NodeId → Node → Bool) : Graph Node Thread :=
  ((g.nodes.filter fun n => doomed n.1 n.2).map Prod.fst).foldl Graph.removeNode g

/-- An action without a note that takes nothing in or gives nothing out. -/
def isIdle (g : Graph Node Thread) (id : NodeId) (n : Node) : Bool :=
  n.isPlain && ((g.inEdges id).isEmpty || (g.outEdges id).isEmpty)

/--
An entity that comes from nowhere to no action with a note, or goes nowhere from no such action.
-/
def isStray (g : Graph Node Thread) (id : NodeId) (n : Node) : Bool :=
  n.isEntity &&
    (((g.inEdges id).isEmpty && !(g.successors id).any (Draft.isNotedNode g))
      || ((g.outEdges id).isEmpty && !(g.predecessors id).any (Draft.isNotedNode g)))

/-- Keeps one of the edges between an action without a note and each of its neighbours. -/
def thinPlain (g : Graph Node Thread) : Graph Node Thread :=
  (g.nodesWhere Node.isPlain).foldl (fun g id => (g.thin id).2) g

def trim (g : Graph Node Thread) : Graph Node Thread :=
  let g := prune g (isIdle g)
  let g := prune g (isStray g)
  thinPlain g

/-- The edges as they are shown. -/
def Thread.link (t : Thread) : Link := ⟨some t.id, t.pin⟩

end Annotated

/-- The annotated graph of a flat flow graph. -/
def AnnotatedGraph.ofFlow (f : Flow) (s : Supply) :
    Except AnnotateError (AnnotatedGraph × Supply) := do
  let (d, s) ← Annotated.Draft.ofFlow f s
  let (d, s) ← d.collapse s
  let (g, s) ← d.reify s
  return ((Annotated.trim g).mapData (fun _ n => n) (fun e => e.data.link), s)

end ObjectFlow
