import ObjectFlow.Document
import ObjectFlow.Note.Basic

/-! # Documents of notes and of what they are about -/

namespace ObjectFlow

open Document

namespace NoteKey

def toJson (k : NoteKey) : Json :=
  .obj [("language", .str k.language), ("package", .str k.package), ("id", .str k.id)]

def ofJson (j : Json) : Except DecodeError NoteKey := do
  let fs ← record ["language", "package", "id"] j
  let language ← required fs "language" text
  let package ← required fs "package" text
  let id ← required fs "id" text
  return ⟨language, package, id⟩

end NoteKey

namespace Slot

def toJson : Slot → Json
  | .index i => .int i
  | .path name => .str name

/-- A position is an unsigned number of 64 bits. -/
def ofJson : Json → Except DecodeError Slot
  | .str name => .ok (.path name)
  | j => (natBelow 18446744073709551616 j).map index

def entryToJson (s : Slot) : Json := .obj [("slot", s.toJson)]

def entryOfJson (j : Json) : Except DecodeError Slot := do
  let fs ← record ["slot"] j
  required fs "slot" ofJson

end Slot

namespace NoteKind

def names : List (String × NoteKind) := [("object", object), ("morphism", morphism)]

def toJson : NoteKind → Json
  | .object => .str "object"
  | .morphism => .str "morphism"

end NoteKind

namespace Note

def toJson (n : Note) : Json :=
  .obj ([("language", .str n.language), ("package", .str n.package), ("id", .str n.id),
      ("kind", n.kind.toJson)]
    ++ given "function" Json.str n.function
    ++ given "method" Json.str n.method
    ++ unlessEmpty "class" texts n.classes
    ++ given "type" Json.str n.typeName
    ++ unlessEmpty "domain" (fun ss => .arr (ss.map Slot.entryToJson)) n.domain
    ++ unlessEmpty "codomain" (fun ss => .arr (ss.map Slot.entryToJson)) n.codomain
    ++ unlessEmpty "slots" (writeTable Slot.toJson) n.slots)

/-- One class may be written without a list. -/
def classesOfJson : Json → Except DecodeError (List String)
  | .str s => .ok [s]
  | j => list text j

def ofJson (j : Json) : Except DecodeError Note := do
  let fs ← record ["language", "package", "id", "kind", "function", "method", "class", "type",
    "domain", "codomain", "slots"] j
  let language ← required fs "language" text
  let package ← required fs "package" text
  let id ← required fs "id" text
  let kind ← required fs "kind" (oneOf .document NoteKind.names)
  let function ← optional fs "function" text
  let method ← optional fs "method" text
  let classes ← defaulted fs "class" [] classesOfJson
  let typeName ← optional fs "type" text
  let domain ← defaulted fs "domain" [] (list Slot.entryOfJson)
  let codomain ← defaulted fs "codomain" [] (list Slot.entryOfJson)
  let slots ← defaulted fs "slots" [] (table Slot.ofJson)
  return ⟨language, package, id, kind, function, method, classes, typeName, domain, codomain, slots⟩

end Note

namespace RuntimeType

def toJson (t : RuntimeType) : Json :=
  .obj ([("module", .str t.module), ("qualified_name", .str t.qualifiedName)]
    ++ unlessEmpty "bases" texts t.bases)

def ofJson (j : Json) : Except DecodeError RuntimeType := do
  let fs ← record ["module", "qualified_name", "bases"] j
  let module ← required fs "module" text
  let qualifiedName ← required fs "qualified_name" text
  let bases ← defaulted fs "bases" [] (list text)
  return ⟨module, qualifiedName, bases⟩

end RuntimeType

namespace Callee

def toJson (f : Callee) : Json :=
  .obj ([("module", .str f.module), ("qualified_name", .str f.qualifiedName)]
    ++ given "bound_type" RuntimeType.toJson f.boundType)

def ofJson (j : Json) : Except DecodeError Callee := do
  let fs ← record ["module", "qualified_name", "bound_type"] j
  let module ← required fs "module" text
  let qualifiedName ← required fs "qualified_name" text
  let boundType ← optional fs "bound_type" RuntimeType.ofJson
  return ⟨module, qualifiedName, boundType⟩

end Callee

end ObjectFlow
