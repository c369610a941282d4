import ObjectFlow.Text.Uuid

/-!
# Identities of nodes, edges, objects and graphs

Nodes and edges have numbers of 128 bits, written as 32 hexadecimal digits. Fresh ones come from a
supply, which is handed on wherever something new is made.
-/

namespace ObjectFlow

structure NodeId where
  value : Nat
deriving DecidableEq, Repr

structure EdgeId where
  value : Nat
deriving DecidableEq, Repr

/-- The identity that the tracer gave to a runtime object. -/
structure ObjectId where
  text : String
deriving DecidableEq, Repr

/-- The place of a graph within a recording. -/
structure Handle where
  index : Nat
deriving DecidableEq, Repr

def NodeId.label (id : NodeId) : String := Text.Uuid.simple id.value

def EdgeId.label (id : EdgeId) : String := Text.Uuid.simple id.value

def Handle.label (h : Handle) : String := "graph#" ++ toString h.index

/-- Hands out identities, each of them once. -/
structure Supply where
  next : Nat
deriving DecidableEq, Repr

namespace Supply

def node (s : Supply) : NodeId × Supply := (⟨s.next⟩, ⟨s.next + 1⟩)

def edge (s : Supply) : EdgeId × Supply := (⟨s.next⟩, ⟨s.next + 1⟩)

/-- An identity for an object of which the tracer reported none. -/
def object (s : Supply) : ObjectId × Supply := (⟨Text.Uuid.simple s.next⟩, ⟨s.next + 1⟩)

end Supply

end ObjectFlow
