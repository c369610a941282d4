import ObjectFlow.Json.Value

/-!
# Ontologies

Types have names, supertypes and aspects, and descend from one of two roots. An ontology that is
declared as a whole refers to no type that it lacks; one to which types are added one by one may.
-/

namespace ObjectFlow

/-- The two kinds from which every type descends. -/
inductive RootKind where
  | entity
  | action
deriving DecidableEq, Repr

def RootKind.label : RootKind → String
  | .entity => "entity"
  | .action => "action"

/-- The kinds of captured values. -/
inductive ValueKind where
  | null
  | bool
  | int
  | float
  | str
  | list
  | dict
deriving DecidableEq, Repr

namespace ValueKind

def label : ValueKind → String
  | .null => "null"
  | .bool => "bool"
  | .int => "int"
  | .float => "float"
  | .str => "str"
  | .list => "list"
  | .dict => "dict"

def of : Json → ValueKind
  | .null => .null
  | .bool _ => .bool
  | .int _ => .int
  | .float _ => .float
  | .str _ => .str
  | .arr _ => .list
  | .obj _ => .dict

end ValueKind

/-- A named relation to entities of another type. -/
structure Aspect where
  name : String
  codomain : String
deriving DecidableEq, Repr

structure OntologyType where
  name : String
  /-- Counts for a type that declares no supertype. -/
  root : RootKind
  supertypes : List String
  aspects : List Aspect
deriving DecidableEq, Repr

inductive OntologyError where
  | duplicateType (name : String)
  | typeNotFound (name : String)
  | incomparable (left right : String)
  | malformed
deriving DecidableEq, Repr

def OntologyError.message : OntologyError → String
  | .duplicateType name => "duplicate type name: '" ++ name ++ "'"
  | .typeNotFound name => "type not found: '" ++ name ++ "'"
  | .incomparable left right => "types '" ++ left ++ "' and '" ++ right ++ "' are incomparable"
  | .malformed => "invalid graph document"

/-- Types by name, and the types of captured values. -/
structure Ontology where
  types : List OntologyType
  valueTypes : Table ValueKind String
deriving DecidableEq, Repr

namespace Ontology

def rootType (kind : RootKind) : OntologyType := ⟨kind.label, kind, [], []⟩

/-- The ontology of the two roots. -/
def roots : Ontology := ⟨[rootType .entity, rootType .action], []⟩

def type? (o : Ontology) (name : String) : Option OntologyType :=
  o.types.find? fun t => t.name = name

def names (o : Ontology) : List String := o.types.map OntologyType.name

def isRoot (name : String) : Bool := name == RootKind.entity.label || name == RootKind.action.label

/-- A type of the same name is replaced at its place; any other goes to the end. -/
def replace (t : OntologyType) : List OntologyType → List OntologyType
  | [] => [t]
  | t' :: rest => if t'.name = t.name then t :: rest else t' :: replace t rest

/-- Adds a type; only the roots may be declared again. -/
def register (o : Ontology) (t : OntologyType) : Except OntologyError Ontology :=
  if (o.type? t.name).isSome && !isRoot t.name then .error (.duplicateType t.name)
  else .ok { o with types := replace t o.types }

def setValueType (o : Ontology) (kind : ValueKind) (name : String) : Ontology :=
  { o with valueTypes := Table.put o.valueTypes kind name }

def valueType? (o : Ontology) (kind : ValueKind) : Option String := Table.at? o.valueTypes kind

/-- The first name that a type refers to and that no type has. -/
def undeclared? (o : Ontology) : Option String :=
  o.types.findSome? fun t =>
    (t.supertypes ++ t.aspects.map Aspect.codomain).find? fun name => (o.type? name).isNone

/-- The ontology of declared types, all of whose references must be declared too. -/
def declare (types : List OntologyType) (valueTypes : List (ValueKind × String)) :
    Except OntologyError Ontology := do
  let o ← types.foldlM register roots
  let o := valueTypes.foldl (fun o v => o.setValueType v.1 v.2) o
  match o.undeclared? with
  | some name => .error (.typeNotFound name)
  | none => .ok o

end Ontology

end ObjectFlow
