import ObjectFlow.Graph.Basic

/-!
# Contracting nodes, subdividing edges, thinning parallel edges

Contraction puts one node in the place of several and keeps the edges that cross their boundary;
where a member is listed twice, it stops when an edge would be added a second time.
Contracting two nodes leaves a smaller graph (`length_contract_lt`).
-/

namespace ObjectFlow

/-- A change that was refused half-way, with the graph as it was left. -/
structure Interrupted (N E : Type) where
  cause : GraphError
  graph : Graph N E

namespace Graph

variable {N E : Type}

/-- The edges with one end among the members, that end moved to another node. -/
def boundary (g : Graph N E) (members : List NodeId) (hub : NodeId) : List (Edge E) :=
  members.flatMap fun m =>
    let into := (g.inEdges m).filter fun e => !members.contains e.source
    let out := (g.outEdges m).filter fun e => !members.contains e.target
    into.map (fun e => { e with target := hub }) ++ out.map fun e => { e with source := hub }

/-- Adds edges up to the first that is refused. -/
def restore (g : Graph N E) : List (Edge E) → Except (Interrupted N E) (Graph N E)
  | [] => .ok g
  | e :: rest =>
    match g.addEdge e with
    | .ok g' => restore g' rest
    | .error cause => .error ⟨cause, g⟩

/--
Puts one new node in the place of the members. Edges between a member and another node stay, with
the new node as their end, and edges between members go.
-/
def contract (g : Graph N E) (members : List NodeId) (hub : NodeId) (data : N) :
    Except (Interrupted N E) (Graph N E) :=
  if g.hasNode hub then .error ⟨.duplicateNode hub, g⟩
  else
    match members.find? fun m => !g.hasNode m with
    | some m => .error ⟨.nodeNotFound m, g⟩
    | none =>
      (members.foldl removeNode (g.attachNode hub data)).restore (g.boundary members hub)

/-- Moves edges, one by one to the end of the order. -/
def moveEdges (g : Graph N E) (moved : List (Edge E)) : Except GraphError (Graph N E) :=
  moved.foldlM (fun g e => (g.removeEdge e.id).addEdge e) g

/--
Puts a new node in front of a node: the selected edges into the node end at the new one instead,
which is linked to it.
-/
def insertBefore (g : Graph N E) (id hub : NodeId) (data : N) (link : EdgeId × E)
    (select : Edge E → Bool) : Except GraphError (Graph N E) := do
  if !g.hasNode id then .error (.nodeNotFound id)
  let moved := (g.inEdges id).filter select
  let g ← g.addNode hub data
  let g ← g.moveEdges (moved.map fun e => { e with target := hub })
  g.addEdge ⟨link.1, hub, id, link.2⟩

/--
Puts a new node behind a node: the selected edges out of the node start at the new one instead, to
which it is linked.
-/
def insertAfter (g : Graph N E) (id hub : NodeId) (data : N) (link : EdgeId × E)
    (select : Edge E → Bool) : Except GraphError (Graph N E) := do
  if !g.hasNode id then .error (.nodeNotFound id)
  let moved := (g.outEdges id).filter select
  let g ← g.addNode hub data
  let g ← g.moveEdges (moved.map fun e => { e with source := hub })
  g.addEdge ⟨link.1, id, hub, link.2⟩

/-- The edges whose far end an earlier edge of the list has too. -/
def repeated (far : Edge E → NodeId) : List (Edge E) → List NodeId → List EdgeId
  | [], _ => []
  | e :: rest, seen =>
    if seen.contains (far e) then e.id :: repeated far rest seen
    else repeated far rest (far e :: seen)

/--
The edges at a node that run beside an earlier one; an edge that is listed twice in a row is
listed once.
-/
def superfluous (g : Graph N E) (id : NodeId) : List EdgeId :=
  (repeated Edge.source (g.inEdges id) [] ++ repeated Edge.target (g.outEdges id) []).eraseReps

/-- Keeps the first edge from and to each neighbour of a node, and counts the others. -/
def thin (g : Graph N E) (id : NodeId) : Nat × Graph N E :=
  let doomed := g.superfluous id
  (doomed.length, doomed.foldl removeEdge g)

theorem nodes_restore {g g' : Graph N E} {es : List (Edge E)} (h : g.restore es = .ok g') :
    g'.nodes = g.nodes := by
  induction es generalizing g with
  | nil =>
    cases h
    rfl
  | cons e rest ih =>
    simp only [restore] at h
    split at h
    · rename_i g₁ h₁
      rw [ih h, nodes_addEdge h₁]
    · cases h

/-- Contracting two nodes leaves one node fewer. -/
theorem length_contract_lt {g g' : Graph N E} {a b hub : NodeId} {x : N} (hne : b ≠ a)
    (h : g.contract [a, b] hub x = .ok g') : g'.nodes.length < g.nodes.length := by
  unfold contract at h
  split at h
  · cases h
  · split at h
    · cases h
    · rename_i hall
      have ha : g.hasNode a := by
        have := List.find?_eq_none.1 hall a (by simp)
        simpa using this
      have hb : g.hasNode b := by
        have := List.find?_eq_none.1 hall b (by simp)
        simpa using this
      rw [nodes_restore h]
      simp only [List.foldl_cons, List.foldl_nil]
      have h₁ := length_removeNode_lt (hasNode_attachNode hub x ha)
      have hb' : ((g.attachNode hub x).removeNode a).hasNode b := by
        rw [hasNode_removeNode_of_ne _ hne]
        exact hasNode_attachNode hub x hb
      have h₂ := length_removeNode_lt hb'
      have h₃ : (g.attachNode hub x).nodes.length = g.nodes.length + 1 := by
        simp [attachNode]
      omega

end Graph

end ObjectFlow
