import ObjectFlow.Document
import ObjectFlow.Json.Reader
import ObjectFlow.Ontology.Basic

/-!
# Documents of ontologies

Of the text of an ontology only the members are looked at that its records know (`extent`).
-/

namespace ObjectFlow

open Document

def RootKind.names : List (String × RootKind) := [("entity", .entity), ("action", .action)]

def RootKind.toJson (r : RootKind) : Json := .str r.label

def ValueKind.names : List (String × ValueKind) :=
  [("null", .null), ("bool", .bool), ("int", .int), ("float", .float), ("str", .str),
    ("list", .list), ("dict", .dict)]

def Aspect.toJson (a : Aspect) : Json :=
  .obj [("name", .str a.name), ("codomain", .str a.codomain)]

def Aspect.ofJson (j : Json) : Except DecodeError Aspect := do
  let fs ← record ["name", "codomain"] j
  let name ← required fs "name" text
  let codomain ← required fs "codomain" text
  return ⟨name, codomain⟩

namespace OntologyType

def toJson (t : OntologyType) : Json :=
  .obj [("name", .str t.name), ("root", t.root.toJson), ("supertypes", texts t.supertypes),
    ("aspects", .arr (t.aspects.map Aspect.toJson))]

def ofJson (j : Json) : Except DecodeError OntologyType := do
  let fs ← record ["name", "root", "supertypes", "aspects"] j
  let name ← required fs "name" text
  let root ← defaulted fs "root" .entity (oneOf .document RootKind.names)
  let supertypes ← defaulted fs "supertypes" [] (list text)
  let aspects ← defaulted fs "aspects" [] (list Aspect.ofJson)
  return ⟨name, root, supertypes, aspects⟩

end OntologyType

namespace Ontology

/-- The kinds of values that an object names, with the types that it gives them. -/
def valueTypesOfJson : Json → Except DecodeError (List (ValueKind × String))
  | .obj ms => ms.mapM fun m =>
    match Table.at? ValueKind.names m.1, text m.2 with
    | some kind, .ok name => .ok (kind, name)
    | _, _ => .error .malformed
  | _ => .error .malformed

/-- What is looked at of an ontology document. -/
def extent : Json.Extent :=
  .record [
    ("types", .list (.record [("name", .whole), ("root", .whole), ("supertypes", .whole),
      ("aspects", .list (.members ["name", "codomain"]))])),
    ("value_types", .whole)]

def partsOfJson (j : Json) :
    Except DecodeError (List OntologyType × List (ValueKind × String)) := do
  let fs ← record ["types", "value_types"] j
  let types ← defaulted fs "types" [] (list OntologyType.ofJson)
  let valueTypes ← defaulted fs "value_types" [] valueTypesOfJson
  return (types, valueTypes)

/-- Reads the text of an ontology document. -/
def ofText (s : String) : Except OntologyError Ontology :=
  match Json.readWithin? extent s with
  | none => .error .malformed
  | some j =>
    match partsOfJson j with
    | .error _ => .error .malformed
    | .ok (types, valueTypes) => declare types valueTypes

end Ontology

end ObjectFlow
