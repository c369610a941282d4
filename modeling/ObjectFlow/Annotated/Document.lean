import ObjectFlow.Annotated.Node
import ObjectFlow.Graph.Document

/-! # Documents of annotated graphs -/

namespace ObjectFlow

open Document

namespace Annotated

namespace Action

def fields (a : Action) : List (String × Json) :=
  given "annotation" NoteKey.toJson a.note ++ [("label", .str a.label)]
    ++ if a.collapsed then [("collapsed", .bool true)] else []

def toJson (a : Action) : Json := .obj a.fields

def ofJson (j : Json) : Except DecodeError Action := do
  let fs ← record ["annotation", "label", "collapsed"] j
  let note ← optional fs "annotation" NoteKey.ofJson
  let label ← required fs "label" text
  let collapsed ← defaulted fs "collapsed" false flag
  return ⟨note, label, collapsed⟩

end Action

namespace Entity

def fields (e : Entity) : List (String × Json) :=
  given "annotation" NoteKey.toJson e.profile.note
    ++ [("label", .str e.label)]
    ++ given "id" writeObject e.profile.id
    ++ given "value" (fun j => j) e.profile.value
    ++ given "type" Json.str e.profile.type
    ++ unlessEmpty "slots" (writeTable Profile.toJson) e.profile.slots

def toJson (e : Entity) : Json := .obj e.fields

def ofJson (j : Json) : Except DecodeError Entity := do
  let fs ← record ["annotation", "label", "id", "value", "type", "slots"] j
  let note ← optional fs "annotation" NoteKey.ofJson
  let label ← required fs "label" text
  let id ← optional fs "id" objectId
  let value ← optional fs "value" anything
  let type ← optional fs "type" text
  let slots ← defaulted fs "slots" [] (table Profile.ofJson)
  return ⟨⟨id, note, value, type, slots⟩, label⟩

end Entity

namespace Node

def toJson : Node → Json
  | .action a => .obj (("kind", .str "action") :: a.fields)
  | .entity e => .obj (("kind", .str "entity") :: e.fields)

def ofJson (j : Json) : Except DecodeError Node := do
  let (kind, rest) ← variant "kind" j
  match kind with
  | "action" => (Action.ofJson rest).map .action
  | "entity" => (Entity.ofJson rest).map .entity
  | _ => .error .malformed

end Node

namespace Link

def toJson (l : Link) : Json :=
  .obj (given "id" writeObject l.id ++ given "port" Json.str l.pin)

def ofJson (j : Json) : Except DecodeError Link := do
  let fs ← record ["id", "port"] j
  let id ← optional fs "id" objectId
  let pin ← optional fs "port" text
  return ⟨id, pin⟩

end Link

end Annotated

def AnnotatedGraph.toJson (g : AnnotatedGraph) : Json :=
  Graph.toJson Annotated.Node.toJson Annotated.Link.toJson g

def AnnotatedGraph.ofJson (j : Json) : Except DecodeError AnnotatedGraph :=
  Graph.ofJson Annotated.Node.ofJson Annotated.Link.ofJson j

end ObjectFlow
