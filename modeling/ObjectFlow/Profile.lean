import ObjectFlow.Note.Document

/-!
# What is known about an object

A profile may hold profiles of the objects in its slots, to any depth.
-/

namespace ObjectFlow

open Document

structure Profile where
  id : Option ObjectId := none
  note : Option NoteKey := none
  value : Option Json := none
  /-- A type of the ontology, only where it cannot be told from the note or the value. -/
  type : Option String := none
  slots : List (String × Profile) := []
deriving Inhabited

namespace Profile

mutual

def toJson : Profile → Json
  | ⟨id, note, value, type, slots⟩ =>
    .obj (given "id" writeObject id
      ++ given "annotation" NoteKey.toJson note
      ++ given "value" (fun j => j) value
      ++ given "type" Json.str type
      ++ unlessEmpty "slots" Json.obj (slotsToJson slots))

def slotsToJson : List (String × Profile) → List (String × Json)
  | [] => []
  | (name, p) :: rest => (name, toJson p) :: slotsToJson rest

end

def fieldNames : List String := ["id", "annotation", "value", "type", "slots"]

/-- The members of a profile, given its slots. -/
def ofFields (fs : Fields) (slots : List (String × Profile)) : Except DecodeError Profile := do
  let id ← optional fs "id" objectId
  let note ← optional fs "annotation" NoteKey.ofJson
  let value ← optional fs "value" anything
  let type ← optional fs "type" text
  return ⟨id, note, value, type, slots⟩

mutual

def ofJson : Json → Except DecodeError Profile
  | .obj members => do
    let fs ← Document.members fieldNames members
    let slots ← slotsIn members
    ofFields fs slots
  | .arr items => do
    let fs ← record fieldNames (.arr items)
    let slots ← slotsAt items
    ofFields fs slots
  | _ => .error .malformed

def slotsIn : List (String × Json) → Except DecodeError (List (String × Profile))
  | [] => .ok []
  | (name, j) :: rest => if name = "slots" then slotsOfJson j else slotsIn rest

def slotsAt : List Json → Except DecodeError (List (String × Profile))
  | [_, _, _, _, slots] => slotsOfJson slots
  | _ => .ok []

def slotsOfJson : Json → Except DecodeError (List (String × Profile))
  | .obj members => (namedOfJson members).map Table.ofEntries
  | _ => .error .malformed

def namedOfJson : List (String × Json) → Except DecodeError (List (String × Profile))
  | [] => .ok []
  | (name, j) :: rest => do
    let p ← ofJson j
    let more ← namedOfJson rest
    return (name, p) :: more

end

end Profile

end ObjectFlow
