import ObjectFlow.Flow.Node
import ObjectFlow.Graph.Basic
import ObjectFlow.Ontology.Basic

/-!
# Semantic graphs

Every node has a type of the ontology. An edge from an action says which aspect of the action an
entity fills, and an edge from an entity which aspect of that entity another one is.
-/

namespace ObjectFlow

namespace Semantic

structure Node where
  type : String
  root : RootKind
  id : Option ObjectId := none
  value : Option Json := none
  /-- Slots that have not become entities of their own. -/
  slots : Option (Table String Profile) := none

namespace Node

def isAction (n : Node) : Bool := n.root == .action

def isEntity (n : Node) : Bool := n.root == .entity

end Node

structure Link where
  aspect : Option String := none
  /-- Whether the entity goes into the action or comes out of it. -/
  role : Option Side := none
deriving DecidableEq, Repr

end Semantic

abbrev SemanticGraph := Graph Semantic.Node Semantic.Link

end ObjectFlow
