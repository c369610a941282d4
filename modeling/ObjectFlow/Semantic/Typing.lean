import ObjectFlow.Annotated.Node
import ObjectFlow.Ontology.Inheritance
import ObjectFlow.Semantic.Node
import ObjectFlow.Store.Database

/-!
# Types of nodes

The type of a node is the one that is given for it, or that its note names, or that the ontology has
for its value, or else its root kind.
-/

namespace ObjectFlow

/--
A database of which packages are loaded when a note in them is first needed, and the types found
so far.
-/
structure TypeSource where
  database : Database
  loaded : List (String × String) := []
  types : Table NoteKey (Option String) := []

namespace TypeSource

/-- Loads a package, unless that was tried before. -/
def fetch (t : TypeSource) (language package : String) : Except StorageError Unit × TypeSource :=
  if t.loaded.contains (language, package) then (.ok (), t)
  else
    let (r, db) := t.database.loadPackage language package
    (r.map fun _ => (), { t with database := db, loaded := (language, package) :: t.loaded })

def keyQuery (k : NoteKey) : Query :=
  [.equals "language" (.str k.language), .equals "package" (.str k.package),
    .equals "id" (.str k.id)]

/-- The type that the document with a key names. -/
def lookUp (t : TypeSource) (k : NoteKey) : Except StorageError (Option String) := do
  let doc ← t.database.get (keyQuery k)
  return doc.bind fun d => (d.member? "type").bind Json.text?

/-- The type that a note names; it is looked up once. -/
def noteType (k : NoteKey) (t : TypeSource) : Except StorageError (Option String) × TypeSource :=
  match Table.at? t.types k with
  | some type => (.ok type, t)
  | none =>
    match t.fetch k.language k.package with
    | (.error e, t) => (.error e, t)
    | (.ok (), t) =>
      match t.lookUp k with
      | .error e => (.error e, t)
      | .ok type => (.ok type, { t with types := Table.put t.types k type })

/-- The type that is given, or that the note names. -/
def declared (explicit : Option String) (note : Option NoteKey) (t : TypeSource) :
    Except StorageError (Option String) × TypeSource :=
  match explicit, note with
  | some type, _ => (.ok (some type), t)
  | none, some k => t.noteType k
  | none, none => (.ok none, t)

/-- Does something for every member of a list, up to the first failure. -/
def forEach {α β : Type} (f : α → TypeSource → Except StorageError β × TypeSource) :
    List α → TypeSource → Except StorageError (List β) × TypeSource
  | [], t => (.ok [], t)
  | a :: rest, t =>
    match f a t with
    | (.error e, t) => (.error e, t)
    | (.ok b, t) =>
      match forEach f rest t with
      | (.error e, t) => (.error e, t)
      | (.ok bs, t) => (.ok (b :: bs), t)

end TypeSource

namespace Semantic

def typedAction (a : Annotated.Action) (t : TypeSource) : Except StorageError Node × TypeSource :=
  let (type, t) := t.declared none a.note
  (type.map fun type => ⟨type.getD RootKind.action.label, .action, none, none, none⟩, t)

def typedEntity (o : Ontology) (e : Annotated.Entity) (t : TypeSource) :
    Except StorageError Node × TypeSource :=
  let (type, t) := t.declared e.profile.type e.profile.note
  let byValue := e.profile.value.bind fun v => o.valueType? (.of v)
  (type.map fun type =>
    ⟨(type <|> byValue).getD RootKind.entity.label, .entity, e.profile.id, e.profile.value,
      if e.profile.slots.isEmpty then none else some e.profile.slots⟩, t)

/-- A node with its type. -/
def typed (o : Ontology) (n : NodeId × Annotated.Node) (t : TypeSource) :
    Except StorageError (NodeId × Node) × TypeSource :=
  let (r, t) := match n.2 with
    | .action a => typedAction a t
    | .entity e => typedEntity o e t
  (r.map fun node => (n.1, node), t)

/-- The same graph with typed nodes, and the pins of the edges for aspects. -/
def withTypes (g : AnnotatedGraph) (types : Table NodeId Node) : SemanticGraph :=
  g.mapData (fun id _ => (Table.at? types id).getD ⟨"", .entity, none, none, none⟩)
    fun e => ⟨e.data.pin, none⟩

/-- The more specific of two types, or else the nearest that they have in common. -/
def jointType (o : Ontology) (left right fallback : String) : String :=
  match o.mostSpecific left right with
  | .ok name => name
  | .error _ => (o.commonSupertype? left right).getD fallback

/-- The aspects of a type; a type that the ontology does not know has none. -/
def aspectsOf (o : Ontology) (type : String) : Table String Aspect :=
  match o.inherited type with
  | .ok i => i.aspects
  | .error _ => []

end Semantic

end ObjectFlow
