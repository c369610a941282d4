import ObjectFlow.Flow.Flatten

/-!
# One recording after another

The second recording takes its objects from where the first one left them, and takes the place of
the first one as the producer of every object that it leaves itself.
-/

namespace ObjectFlow

namespace Flow

/-- Gives the bodies of some calls their new handles. -/
def rehandle (f : Flow) (calls : List NodeId) (moved : Table Handle Handle) : Flow :=
  calls.foldl
    (fun f id => f.adjustCall id fun c => { c with body := c.body.bind (Table.at? moved) }) f

/-- The edges by which a later scope takes objects from an earlier one, or from outside. -/
def handover (f : Flow) (outputs : Table ObjectId (Edge Link)) (later : Flow) :
    List (NodeId × NodeId × Link) :=
  (later.graph.outEdges later.input).map fun e =>
    match e.data.object.id.bind (Table.at? outputs) with
    | some producer =>
      (producer.source, e.target, { e.data with sourcePin := producer.data.sourcePin })
    | none => (f.input, e.target, { e.data with sourcePin := none })

/-- What a later scope leaves replaces what the earlier one left under the same identity. -/
def supersede (f : Flow) (s : Supply) (outputs : Table ObjectId (Edge Link)) :
    List (Edge Link) → Except GraphError (Flow × Supply)
  | [] => .ok (f, s)
  | e :: rest => do
    let g := match e.data.object.id.bind (Table.at? outputs) with
      | some stale => f.graph.removeEdge stale.id
      | none => f.graph
    let (id, s) := s.edge
    let g ← g.addEdge ⟨id, e.source, f.output, e.data⟩
    supersede { f with graph := g } s outputs rest

/-- Continues a scope with a later one. -/
def append (f : Flow) (s : Supply) (later : Flow) (moved : Table Handle Handle) :
    Except GraphError (Flow × Supply) := do
  let outputs := f.outputs
  let f ← f.adopt later
  let f := f.rehandle (later.calls.map Prod.fst) moved
  let (f, s) ← f.connect s (f.handover outputs later)
  f.supersede s outputs (later.graph.inEdges later.output)

end Flow

namespace Recording

/-- The handles that the bodies of a recording get behind those of another one. -/
def moved (r later : Recording) : Table Handle Handle :=
  ((later.handles.filter fun g => g.1 ≠ later.root).map Prod.fst).zipIdx.map fun h =>
    (h.1, ⟨r.graphs.length + h.2⟩)

/-- One recording followed by another. -/
def join (r later : Recording) (s : Supply) : Except FlowError (Recording × Supply) := do
  r.validate
  later.validate
  let moved := r.moved later
  let bodies := (later.handles.filter fun g => g.1 ≠ later.root).map fun g =>
    g.2.rehandle g.2.graph.nodeIds moved
  match r.rootGraph?, later.rootGraph? with
  | some first, some second => do
    let (root, s) ← (first.append s second moved).mapError .graph
    return ({ r with graphs := r.graphs ++ bodies }.set r.root root, s)
  | none, _ => .error (.invalid (.rootMissing r.root))
  | _, none => .error (.invalid (.rootMissing later.root))

end Recording

end ObjectFlow
