import ObjectFlow.Flow.Recording
import ObjectFlow.Graph.Document
import ObjectFlow.Json.Reader

/-!
# Documents of flow graphs and recordings

A node of a flow graph names its variant in a member and is set aside until that is known, so its
pins are read from aside. Of the text of a recording only the members are looked at that its records
know (`Recording.extent`).
-/

namespace ObjectFlow

open Document

def Side.toJson : Side → Json
  | .input => .str "input"
  | .output => .str "output"

namespace Flow

namespace Pin

def toJson (p : Pin) : Json :=
  .obj (("portkind", p.side.toJson)
    :: given "argname" Json.str p.argument
    ++ given "annotation_index" (fun (i : Nat) => Json.int i) p.position
    ++ given "annotation" NoteKey.toJson p.note
    ++ given "id" writeObject p.id
    ++ given "value" (fun j => j) p.value
    ++ unlessEmpty "slots" (writeTable Profile.toJson) p.slots)

def ofJson (origin : Origin) (j : Json) : Except DecodeError Pin := do
  let fs ← record
    ["portkind", "argname", "annotation_index", "annotation", "id", "value", "slots"] j
  let side ← required fs "portkind" (oneOf origin Side.names)
  let argument ← optional fs "argname" text
  let position ← optional fs "annotation_index" (natBelow 18446744073709551616)
  let note ← optional fs "annotation" NoteKey.ofJson
  let id ← optional fs "id" objectId
  let value ← optional fs "value" anything
  let slots ← defaulted fs "slots" [] (table Profile.ofJson)
  return ⟨side, argument, position, note, id, value, slots⟩

end Pin

namespace Call

def fields (c : Call) : List (String × Json) :=
  [("module", .str c.module), ("qualified_name", .str c.qualifiedName),
      ("ports", writeTable Pin.toJson c.pins)]
    ++ given "slot" Json.str c.slot
    ++ given "annotation" NoteKey.toJson c.note
    ++ given "graph" writeHandle c.body

def toJson (c : Call) : Json := .obj c.fields

def ofJson (origin : Origin) (j : Json) : Except DecodeError Call := do
  let fs ← record ["module", "qualified_name", "ports", "slot", "annotation", "graph"] j
  let module ← required fs "module" text
  let qualifiedName ← required fs "qualified_name" text
  let pins ← defaulted fs "ports" [] (table (Pin.ofJson origin))
  let slot ← optional fs "slot" text
  let note ← optional fs "annotation" NoteKey.ofJson
  let body ← optional fs "graph" handle
  return ⟨module, qualifiedName, pins, slot, note, body⟩

end Call

namespace Node

def toJson : Node → Json
  | .input => .obj [("role", .str "input")]
  | .output => .obj [("role", .str "output")]
  | .call c => .obj (("role", .str "call") :: c.fields)

/-- A marker has no members: those of an object are ignored, and a list must not go on. -/
def marker (n : Node) : Json → Except DecodeError Node
  | .arr (_ :: _) => .error .malformed
  | _ => .ok n

def ofJson (j : Json) : Except DecodeError Node := do
  let (role, rest) ← variant "role" j
  match role with
  | "input" => marker .input rest
  | "output" => marker .output rest
  | "call" => (Call.ofJson .aside rest).map .call
  | _ => .error .malformed

end Node

namespace Link

def toJson (l : Link) : Json :=
  .obj (given "id" writeObject l.object.id
    ++ given "value" (fun j => j) l.object.value
    ++ given "class" RuntimeType.toJson l.object.type
    ++ given "annotation" NoteKey.toJson l.object.note
    ++ given "source_port" Json.str l.sourcePin
    ++ given "target_port" Json.str l.targetPin)

def ofJson : Json → Except DecodeError Link
  | .obj ms => do
    let fs ← members ["id", "value", "class", "annotation", "source_port", "target_port"] ms
    let id ← optional fs "id" objectId
    let value ← optional fs "value" anything
    let type ← optional fs "class" RuntimeType.ofJson
    let note ← optional fs "annotation" NoteKey.ofJson
    let sourcePin ← optional fs "source_port" text
    let targetPin ← optional fs "target_port" text
    return ⟨⟨id, value, type, note⟩, sourcePin, targetPin⟩
  | _ => .error .malformed

end Link

def toJson (f : Flow) : Json :=
  .obj [("graph", f.graph.toJson Node.toJson Link.toJson), ("input", writeNode f.input),
    ("output", writeNode f.output)]

def ofJson (j : Json) : Except DecodeError Flow := do
  let names := ["graph", "input", "output"]
  let fs ← leading names j
  let graph := required fs "graph" (Graph.ofJson Node.ofJson Link.ofJson)
  let input := required fs "input" nodeId
  let output := required fs "output" nodeId
  match graph, input, output with
  | .ok graph, .ok input, .ok output =>
    if goesOn names j then .error .malformed else .ok ⟨graph, input, output⟩
  | graph, input, output =>
    .error (firstFailure fs
      (failed "graph" graph ++ failed "input" input ++ failed "output" output))

end Flow

namespace Recording

def toJson (r : Recording) : Json :=
  .obj [("graphs", .arr (r.graphs.map Flow.toJson)), ("root", writeHandle r.root)]

def ofJson (j : Json) : Except DecodeError Recording := do
  let names := ["graphs", "root"]
  let fs ← leading names j
  match required fs "graphs" (list Flow.ofJson), required fs "root" handle with
  | .ok graphs, .ok root => if goesOn names j then .error .malformed else .ok ⟨graphs, root⟩
  | graphs, root => .error (firstFailure fs (failed "graphs" graphs ++ failed "root" root))

/-- What is looked at of the text of a recording. -/
def extent : Json.Extent :=
  .record [
    ("graphs", .list (.record [
      ("graph", Graph.extent), ("input", .whole), ("output", .whole)])),
    ("root", .whole)]

/-- Reads the text of a recording. -/
def ofText (s : String) : Except DecodeError Recording :=
  match Json.readWithin? extent s with
  | some j => ofJson j
  | none => .error .malformed

end Recording

end ObjectFlow
