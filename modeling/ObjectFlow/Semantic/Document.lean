import ObjectFlow.Flow.Document
import ObjectFlow.Ontology.Document
import ObjectFlow.Semantic.Node

/-! # Documents of semantic graphs -/

namespace ObjectFlow

open Document

namespace Semantic

namespace Node

def toJson (n : Node) : Json :=
  .obj ([("type", .str n.type), ("root", n.root.toJson)]
    ++ given "id" writeObject n.id
    ++ given "value" (fun j => j) n.value
    ++ given "slots" (writeTable Profile.toJson) n.slots)

def ofJson (j : Json) : Except DecodeError Node := do
  let fs ← record ["type", "root", "id", "value", "slots"] j
  let type ← required fs "type" text
  let root ← required fs "root" (oneOf .document RootKind.names)
  let id ← optional fs "id" objectId
  let value ← optional fs "value" anything
  let slots ← optional fs "slots" (table Profile.ofJson)
  return ⟨type, root, id, value, slots⟩

end Node

namespace Link

def toJson (l : Link) : Json :=
  .obj (given "aspect" Json.str l.aspect ++ given "role" Side.toJson l.role)

def ofJson (j : Json) : Except DecodeError Link := do
  let fs ← record ["aspect", "role"] j
  let aspect ← optional fs "aspect" text
  let role ← optional fs "role" (oneOf .document Side.names)
  return ⟨aspect, role⟩

end Link

end Semantic

def SemanticGraph.toJson (g : SemanticGraph) : Json :=
  Graph.toJson Semantic.Node.toJson Semantic.Link.toJson g

def SemanticGraph.ofJson (j : Json) : Except DecodeError SemanticGraph :=
  Graph.ofJson Semantic.Node.ofJson Semantic.Link.ofJson j

end ObjectFlow
