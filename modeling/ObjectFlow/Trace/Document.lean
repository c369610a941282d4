import ObjectFlow.Note.Document
import ObjectFlow.Text.Integer
import ObjectFlow.Trace.Snapshot

/-!
# Documents of runtime values

A value is a record of its kind and its content. Where the content stands in front of the kind it is
set aside until the kind is known.
-/

namespace ObjectFlow

open Document

namespace Snapshot

def tagged (kind : String) (value : Json) : Json := .obj [("kind", .str kind), ("value", value)]

mutual

/-- A value as its kind and its content. A number that JSON cannot write has no content. -/
def toJson : Snapshot → Json
  | .none => .obj [("kind", .str "none")]
  | .bool b => tagged "bool" (.bool b)
  | .int i => tagged "int" (.int i.toInt)
  | .float x => tagged "float" (if x.isFinite then .float x else .null)
  | .str s => tagged "str" (.str s)
  | .bytes octets => tagged "bytes" (.arr (octets.map fun b => .int b.toNat))
  | .tuple items => tagged "tuple" (.arr (itemsToJson items))
  | .list items => tagged "list" (.arr (itemsToJson items))
  | .set items => tagged "set" (.arr (itemsToJson items))
  | .dict entries => tagged "dict" (.arr (entriesToJson entries))
  | .object id type attributes =>
    tagged "object" (.obj ([("id", writeObject id), ("class", type.toJson)]
      ++ unlessEmpty "attributes" Json.obj (attributesToJson attributes)))
  | .method name receiver =>
    tagged "method" (.obj (("name", .str name) :: given "receiver" writeObject receiver))
  | .untracked type => tagged "opaque" type.toJson

def itemsToJson : List Snapshot → List Json
  | [] => []
  | v :: rest => toJson v :: itemsToJson rest

def entriesToJson : List (Snapshot × Snapshot) → List Json
  | [] => []
  | (k, v) :: rest => .arr [toJson k, toJson v] :: entriesToJson rest

def attributesToJson : List (String × Snapshot) → List (String × Json)
  | [] => []
  | (name, v) :: rest => (name, toJson v) :: attributesToJson rest

end

def Kind.names : List (String × Kind) :=
  [("none", .none), ("bool", .bool), ("int", .int), ("float", .float), ("str", .str),
    ("bytes", .bytes), ("tuple", .tuple), ("list", .list), ("set", .set), ("dict", .dict),
    ("object", .object), ("method", .method), ("opaque", .untracked)]

def octetOfJson (j : Json) : Except DecodeError UInt8 := (natBelow 256 j).map UInt8.ofNat

def methodOfJson (j : Json) : Except DecodeError Snapshot := do
  let fs ← record ["name", "receiver"] j
  let name ← required fs "name" text
  let receiver ← optional fs "receiver" objectId
  return .method name receiver

def numberOfJson : Json → Except DecodeError Snapshot
  | .int i => .ok (.float (Binary64.ofInt i))
  | .float x => .ok (.float x)
  | _ => .error .malformed

def wordOfJson : Json → Except DecodeError Snapshot
  | .int i =>
    match Text.word? i with
    | some w => .ok (.int w)
    | Option.none => .error .malformed
  | _ => .error .malformed

/-- The kinds whose content holds no other values. -/
def scalarOfJson (kind : Kind) (j : Json) : Except DecodeError Snapshot :=
  match kind with
  | .none => if j.isNull then .ok .none else .error .malformed
  | .bool => (flag j).map .bool
  | .int => wordOfJson j
  | .float => numberOfJson j
  | .str => (text j).map .str
  | .bytes => (Document.list octetOfJson j).map .bytes
  | .method => methodOfJson j
  | .untracked => (RuntimeType.ofJson j).map .untracked
  | _ => .error .malformed

/-- Where the content of a record is read from, given the members that it knows. -/
def contentOrigin (origin : Origin) : Fields → Origin
  | ("value", _) :: _ => .aside
  | _ => origin

mutual

/--
Reads a value: a record of its kind and its content, which may be missing where there is none.
-/
def ofJson (origin : Origin) : Json → Except DecodeError Snapshot
  | .obj members => do
    let fs ← Document.members ["kind", "value"] members
    let kind ← required fs "kind" (oneOf origin Kind.names)
    contentIn (contentOrigin origin fs) kind members
  | .arr [k, v] => do
    let kind ← head origin Kind.names k
    content origin kind v
  | _ => .error .malformed

def contentIn (origin : Origin) (kind : Kind) : List (String × Json) → Except DecodeError Snapshot
  | [] => if kind = .none then .ok .none else .error .malformed
  | (name, j) :: rest =>
    if name = "value" then content origin kind j else contentIn origin kind rest

def content (origin : Origin) (kind : Kind) : Json → Except DecodeError Snapshot
  | .arr items =>
    match kind with
    | .tuple => (itemsOfJson origin items).map .tuple
    | .list => (itemsOfJson origin items).map .list
    | .set => (itemsOfJson origin items).map .set
    | .dict => (entriesOfJson origin items).map .dict
    | .object => objectOfItems origin items
    | _ => scalarOfJson kind (.arr items)
  | .obj members =>
    if kind = .object then do
      let fs ← Document.members ["id", "class", "attributes"] members
      let id ← required fs "id" objectId
      let type ← required fs "class" RuntimeType.ofJson
      let attributes ← attributesIn origin members
      return .object id type attributes
    else scalarOfJson kind (.obj members)
  | j => scalarOfJson kind j

def itemsOfJson (origin : Origin) : List Json → Except DecodeError (List Snapshot)
  | [] => .ok []
  | j :: rest => do
    let v ← ofJson origin j
    let vs ← itemsOfJson origin rest
    return v :: vs

def entriesOfJson (origin : Origin) :
    List Json → Except DecodeError (List (Snapshot × Snapshot))
  | [] => .ok []
  | .arr [k, v] :: rest => do
    let k ← ofJson origin k
    let v ← ofJson origin v
    let more ← entriesOfJson origin rest
    return (k, v) :: more
  | _ :: _ => .error .malformed

def objectOfItems (origin : Origin) : List Json → Except DecodeError Snapshot
  | [id, type] => do
    let id ← objectId id
    let type ← RuntimeType.ofJson type
    return .object id type []
  | [id, type, attributes] => do
    let id ← objectId id
    let type ← RuntimeType.ofJson type
    let attributes ← attributesOfJson origin attributes
    return .object id type attributes
  | _ => .error .malformed

def attributesIn (origin : Origin) :
    List (String × Json) → Except DecodeError (List (String × Snapshot))
  | [] => .ok []
  | (name, j) :: rest =>
    if name = "attributes" then attributesOfJson origin j else attributesIn origin rest

def attributesOfJson (origin : Origin) : Json → Except DecodeError (List (String × Snapshot))
  | .obj members => (namedOfJson origin members).map Table.ofEntries
  | _ => .error .malformed

def namedOfJson (origin : Origin) :
    List (String × Json) → Except DecodeError (List (String × Snapshot))
  | [] => .ok []
  | (name, j) :: rest => do
    let v ← ofJson origin j
    let more ← namedOfJson origin rest
    return (name, v) :: more

end

end Snapshot

end ObjectFlow
