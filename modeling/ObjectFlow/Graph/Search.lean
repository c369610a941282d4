import ObjectFlow.Graph.Basic

/-!
# Breadth-first search

Every visited node says whether the search goes on beyond it, stops there, or stops altogether. A
node is in the queue at most once, so that the nodes not seen yet and those in the queue together
get fewer with every visit (`discover_length`).
-/

namespace ObjectFlow

/-- Along which edges a search goes on. -/
inductive Direction where
  | forward
  | reverse
  | undirected
deriving DecidableEq, Repr

/-- What a visited node tells the search to do. -/
inductive Verdict (T : Type) where
  | expand
  | prune
  | stop (result : T)
deriving DecidableEq, Repr

/-- The nodes that a search visited with their depths, the edges it asked for, and what it found. -/
structure Search (T : Type) where
  visited : List (NodeId × Nat)
  asked : List EdgeId
  found : Option T

namespace Graph

variable {N E T : Type}

/-- The edges at a node that a search may follow, each with the node at its other end. -/
def onward (g : Graph N E) (d : Direction) (id : NodeId) : List (Edge E × NodeId) :=
  let out := (g.outEdges id).map fun e => (e, e.target)
  let back := (g.inEdges id).map fun e => (e, e.source)
  match d with
  | .forward => out
  | .reverse => back
  | .undirected => out ++ back

/-- Moves nodes that were not seen yet to the end of the queue. -/
def discover (depth : Nat) :
    List NodeId → List NodeId → List (NodeId × Nat) → List NodeId × List (NodeId × Nat)
  | [], unseen, queue => (unseen, queue)
  | id :: rest, unseen, queue =>
    if unseen.contains id then discover depth rest (unseen.erase id) (queue ++ [(id, depth)])
    else discover depth rest unseen queue

theorem discover_length (depth : Nat) (ids unseen : List NodeId) (queue : List (NodeId × Nat)) :
    (discover depth ids unseen queue).1.length + (discover depth ids unseen queue).2.length
      = unseen.length + queue.length := by
  induction ids generalizing unseen queue with
  | nil => rfl
  | cons id rest ih =>
    simp only [discover]
    split
    · rename_i h
      have h : id ∈ unseen := by simpa using h
      have := List.length_pos_of_mem h
      rw [ih, List.length_erase_of_mem h, List.length_append]
      simp only [List.length_singleton]
      omega
    · exact ih unseen queue

/-- Visits the nodes of a queue and those that they lead to. -/
def searchFrom (g : Graph N E) (d : Direction) (visit : NodeId → Nat → Verdict T)
    (follow : Edge E → Bool) (unseen : List NodeId) : List (NodeId × Nat) → Search T
  | [] => ⟨[], [], none⟩
  | (id, depth) :: queue =>
    match visit id depth with
    | .stop result => ⟨[(id, depth)], [], some result⟩
    | .prune =>
      let rest := searchFrom g d visit follow unseen queue
      { rest with visited := (id, depth) :: rest.visited }
    | .expand =>
      let next := g.onward d id
      let reached := (next.filter fun n => follow n.1).map Prod.snd
      let state := discover (depth + 1) reached unseen queue
      let rest := searchFrom g d visit follow state.1 state.2
      { rest with
        visited := (id, depth) :: rest.visited
        asked := next.map (fun n => n.1.id) ++ rest.asked }
termination_by queue => unseen.length + queue.length
decreasing_by
  · simp
  · have := discover_length (depth + 1)
      (((g.onward d id).filter fun n => follow n.1).map Prod.snd) unseen queue
    simp only [List.length_cons]
    omega

/-- Visits nodes by their distance from a start, until one of them stops the search. -/
def search (g : Graph N E) (start : NodeId) (d : Direction) (visit : NodeId → Nat → Verdict T)
    (follow : Edge E → Bool) : Search T :=
  if g.hasNode start then g.searchFrom d visit follow (g.nodeIds.erase start) [(start, 0)]
  else ⟨[], [], none⟩

end Graph

end ObjectFlow
