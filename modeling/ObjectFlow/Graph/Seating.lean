import ObjectFlow.Identity

/-!
# Numbered places for nodes

A new node takes the place that was vacated last, or else a new one at the end. A graph that is
copied or read from a document is seated anew, in the order of its nodes (`seated_inOrder`).
-/

namespace ObjectFlow

/--
Every node of a graph sits at a place; a place that was vacated is given away again before a new
one.
-/
structure Seating where
  places : List (Option NodeId) := []
  /-- Empty places, the most recently vacated first. -/
  vacant : List Nat := []
deriving DecidableEq, Repr

namespace Seating

def seat (s : Seating) (id : NodeId) : Seating :=
  match s.vacant with
  | [] => { s with places := s.places ++ [some id] }
  | i :: rest => ⟨s.places.set i (some id), rest⟩

def unseat (s : Seating) (id : NodeId) : Seating :=
  match s.places.findIdx? (· == some id) with
  | none => s
  | some i => ⟨s.places.set i none, i :: s.vacant⟩

/-- The nodes by the numbers of their places. -/
def seated (s : Seating) : List NodeId := s.places.filterMap id

/-- Nodes that take their places one after the other. -/
def inOrder (ids : List NodeId) : Seating := ⟨ids.map some, []⟩

@[simp] theorem seated_inOrder (ids : List NodeId) : (inOrder ids).seated = ids := by
  simp [inOrder, seated, List.filterMap_map]

end Seating

end ObjectFlow
