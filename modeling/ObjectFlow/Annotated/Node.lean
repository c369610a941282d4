import ObjectFlow.Graph.Basic
import ObjectFlow.Profile

/-!
# Actions and entities

In an annotated graph every edge joins an action and an entity: an edge to an action is an input of
it, and an edge from an action an output.
-/

namespace ObjectFlow

namespace Annotated

/-- A call, or several calls without a note in one. -/
structure Action where
  note : Option NoteKey := none
  label : String := ""
  collapsed : Bool := false
deriving DecidableEq, Repr

/-- The action of a call. -/
def Action.ofNote (note : Option NoteKey) : Action := ⟨note, (note.map NoteKey.id).getD "", false⟩

/-- An object that goes from action to action. -/
structure Entity where
  profile : Profile := {}
  label : String := ""

/-- An entity is labelled by its note, or else by having a value. -/
def Entity.ofProfile (p : Profile) : Entity :=
  ⟨p, match p.note, p.value with
    | some key, _ => key.id
    | none, some _ => "value"
    | none, none => ""⟩

inductive Node where
  | action (a : Action)
  | entity (e : Entity)

namespace Node

def note : Node → Option NoteKey
  | .action a => a.note
  | .entity e => e.profile.note

def isNoted (n : Node) : Bool := n.note.isSome

def isAction : Node → Bool
  | .action _ => true
  | .entity _ => false

def isEntity (n : Node) : Bool := !n.isAction

/-- An action without a note. -/
def isPlain (n : Node) : Bool := n.isAction && !n.isNoted

end Node

/-- The object that goes along an edge, and the pin of the action at its end. -/
structure Link where
  id : Option ObjectId := none
  pin : Option String := none
deriving DecidableEq, Repr

end Annotated

abbrev AnnotatedGraph := Graph Annotated.Node Annotated.Link

end ObjectFlow
